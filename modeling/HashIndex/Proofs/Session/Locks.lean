import HashIndex.Proofs.Call.Locks
import HashIndex.Proofs.Session.Release

/-!
# No release under a lock

Whenever somebody has the chance to do something, be it a script, a hook or a hook of an element
that a hook destroyed, no bucket of any table is locked. So when a value is handed to its release
nothing is locked, the hook may do what it likes, and nobody waits for a lock that he holds himself.

## Main statements

* `Session.Reachable.locks_eq_nil`: between bits of tasks nothing is locked.
* `Session.Reachable.unlocked`: every lock is taken when there is none, and given back before
  anything is released.
-/

namespace HashIndex.Script.Session

variable {K : Type} {s s' : Session K} {base : List (Task K)} {calls : List (Call (Item K) K)}

theorem Reachable.locks_eq_nil (h : Reachable calls s) : s.store.locks = [] := by
  obtain ⟨-, l, -, -, hs⟩ := h.sound
  exact hs.idle

theorem Above.locks_eq_nil (habove : Above base s s') (h : Reachable calls s) :
    s'.store.locks = [] := by
  obtain ⟨calls', h'⟩ := habove.reachable h
  exact h'.locks_eq_nil

/-- Nothing is locked when a reference is put, and so when a value is handed to its release, and
nothing is locked when its hook comes to act. Every call takes a lock only if there is none, and has
given it back when it returns. If a lock lived any longer, then just the calls that lock a bucket
would wait for ever, and no last reference could be put. -/
theorem Reachable.unlocked (h : Reachable calls s) :
    s.store.locks = [] ∧
    (∀ base s', Above base s s' → s'.store.locks = []) ∧
    (∀ task tasks e, s.tasks = task :: tasks → task.puts? = some e →
      ∃ s', { s with tasks := tasks }.perform task = .ok s' ∧
        s.Puts e (fun last => task.afterPut last ++ tasks) s' ∧ s'.store.locks = []) ∧
    (∀ c, s.store.Permits c → ∃ reply store, s.store.call c = .ok (reply, store) ∧
      store.locks = []) ∧
    (∀ (store : Store (Item K) K) lock,
      (∃ store', store.lock lock = .ok store') ↔ store.locks = []) ∧
    (∀ step fault, s.begin step = .error fault → fault ≠ .lockHeld ∧ fault ≠ .releasedUnderLock) ∧
    (∀ task tasks fault, s.tasks = task :: tasks →
      { s with tasks := tasks }.perform task = .error fault →
        fault ≠ .lockHeld ∧ fault ≠ .releasedUnderLock) ∧
    (∀ (steps : List (Step K)) fault, report steps = .error fault →
      fault ≠ .lockHeld ∧ fault ≠ .releasedUnderLock) ∧
    (∀ c locks, s.store.Permits c → locks ≠ [] →
      ((s.store.under locks).call c = .error .lockHeld ↔ s.store.Acquires c)) ∧
    ∀ e locks, s.store.Permits (.put e) → locks ≠ [] →
      ((s.store.under locks).call (.put e) = .error .releasedUnderLock ↔
        ∃ x, s.store.heap.get? e = some x ∧ x.count = 1) := by
  obtain ⟨replies, hruns⟩ := h.runs
  have hinUse : ∀ {fault : Fault}, fault = .tableInUse →
      fault ≠ .lockHeld ∧ fault ≠ .releasedUnderLock := by
    rintro fault rfl
    exact ⟨by simp, by simp⟩
  refine ⟨h.locks_eq_nil, fun base s' habove => habove.locks_eq_nil h,
    fun task tasks e htasks hputs => ?_, fun c hpermits => hruns.exists_call_unlocked hpermits,
    fun store lock => by simp [Store.lock_eq_ok_iff],
    fun step fault hbegin => hinUse (h.safe.begin step fault hbegin),
    fun task tasks fault htasks hperform =>
      hinUse (h.safe.perform task tasks fault htasks hperform),
    fun steps fault hreport => hinUse (fault_eq_of_report hreport),
    fun c locks hpermits hheld => hruns.call_under_iff hpermits hheld,
    fun e locks hpermits hheld => hruns.put_under_iff hpermits hheld⟩
  obtain ⟨s', hperform, hput⟩ := h.puts htasks hputs
  exact ⟨s', hperform, hput, (h.perform htasks hperform).locks_eq_nil⟩

/-- After a script that links an element nothing is locked. If a lock were left, a key could not be
looked up. -/
theorem Reachable.unlocked_of_linking :
    ∃ (calls : List (Call (Item Nat) Nat)) (s : Session Nat), Reachable calls s ∧
      s.store.locks = [] ∧ (∃ reply store, s.store.call (.lookup 0 7) = .ok (reply, store) ∧
        store.locks = []) ∧
      ∀ locks, locks ≠ [] → (s.store.under locks).call (.lookup 0 7) = .error .lockHeld := by
  obtain ⟨calls, s, h, -, -, hfind, -⟩ := exists_reachable_linking
  obtain ⟨-, l, -, -, hs⟩ := h.sound
  obtain ⟨-, r, hr⟩ := hs.named_of_find? hfind
  obtain ⟨table, ht, -⟩ := hs.agrees.exists_table hr
  obtain ⟨hidle, -, -, hcalls, -, -, -, -, hunder, -⟩ := Reachable.unlocked h
  have hpermits : s.store.Permits (.lookup 0 7) := ⟨table, ht⟩
  exact ⟨calls, s, h, hidle, hcalls _ hpermits,
    fun locks hheld => (hunder _ locks hpermits hheld).mpr trivial⟩

end HashIndex.Script.Session
