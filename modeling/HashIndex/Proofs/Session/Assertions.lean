import HashIndex.Proofs.Call.Assertions
import HashIndex.Proofs.Session.Release

/-!
# Assertions hold

No script gets to a point where a condition does not hold under which something may be done:
whatever hooks do and however deeply they are nested, elements are claimed when their words are
written, chains are as their elements say, and everything that is counted is there.

## Main statements

* `Session.Reachable.asserted`: no assertion is ever raised.
-/

namespace HashIndex.Script.Session

variable {K : Type} {s : Session K} {e : ElementId} {calls : List (Call (Item K) K)}

/-- Whoever has a reference may put it: it is counted, and if it is the last one, then the element
belongs to nobody. -/
theorem Reachable.exists_puttable (h : Reachable calls s)
    (he : e ∈ s.handleList ∨ e ∈ s.pendingList) :
    ∃ x, s.store.heap.get? e = some x ∧ 0 < x.count ∧ (x.count = 1 → x.owner = .nobody) := by
  obtain ⟨-, l, -, -, hs⟩ := h.sound
  obtain ⟨a, ha⟩ := hs.held (he.imp_right .inl)
  obtain ⟨x, hx⟩ := hs.exists_element ha
  refine ⟨x, hx, hs.count_pos hx, fun hone => ?_⟩
  have hlast := (hs.count_eq_one_iff hx he).mp hone
  exact (hs.agrees.wellFormed.unlinked e x hx hlast.1).1

/-- No assertion is raised, neither by a call that is permitted nor when a step is begun, a bit of a
task is done or a script is run; and each would be raised if its condition did not hold. -/
theorem Reachable.asserted (h : Reachable calls s) :
    (∀ c fault, s.store.Permits c → s.store.call c ≠ .error fault) ∧
    (∀ step fault, s.begin step = .error fault → fault.isAssertion = false) ∧
    (∀ task tasks fault, s.tasks = task :: tasks →
      { s with tasks := tasks }.perform task = .error fault → fault.isAssertion = false) ∧
    (∀ (steps : List (Step K)) fault, report steps = .error fault → fault.isAssertion = false) ∧
    s.store.WellFormed ∧
    (∀ t table hash, s.store.table? t = some table → table.slot hash < table.buckets.size) ∧
    (∀ e, e ∈ s.handleList ∨ e ∈ s.pendingList →
      ∃ x, s.store.heap.get? e = some x ∧ 0 < x.count ∧ (x.count = 1 → x.owner = .nobody)) ∧
    ∀ store : Store (Item K) K, store.Asserts := by
  obtain ⟨replies, hruns⟩ := h.runs
  obtain ⟨-, l, -, -, hs⟩ := h.sound
  refine ⟨fun c fault hpermits => hruns.call_ne_error hpermits, fun step fault hbegin => ?_,
    fun task tasks fault htasks hperform => ?_, fun steps fault hreport => ?_, hs.agrees.wellFormed,
    fun t table hash ht => hruns.slot_lt_size ht hash, fun e he => h.exists_puttable he,
    Store.asserts⟩
  · rw [h.safe.begin step fault hbegin]
    rfl
  · rw [h.safe.perform task tasks fault htasks hperform]
    rfl
  · rw [fault_eq_of_report hreport]
    rfl

/-- A linked element with a handle can be put, and taking it out of its table raises no
assertion. -/
theorem Reachable.asserted_of_linking :
    ∃ (calls : List (Call (Item Nat) Nat)) (s : Session Nat) (x : Element (Item Nat)),
      Reachable calls s ∧ s.handleList = [0] ∧ s.store.heap.get? 0 = some x ∧ 0 < x.count ∧
      (∀ fault, s.begin (.unhash "t" "a") = .error fault → fault.isAssertion = false) ∧
      s.store.Asserts := by
  obtain ⟨calls, s, h, -, hhandles, -⟩ := exists_reachable_linking
  obtain ⟨-, hbegin, -, -, -, -, hputtable, hasserts⟩ := Reachable.asserted h
  obtain ⟨x, hx, hpos, -⟩ := hputtable 0 (.inl (hhandles ▸ List.mem_singleton_self 0))
  exact ⟨calls, s, x, h, hhandles, hx, hpos, hbegin _, hasserts s.store⟩

end HashIndex.Script.Session
