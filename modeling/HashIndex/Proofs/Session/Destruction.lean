import HashIndex.Proofs.Session.Termination

/-!
# Every element is destroyed once

An element that was made is there or was destroyed, and to put the last reference to it is the only
way to destroy it. So when everything was dropped, every element was destroyed, and none twice.
A script that does not come to drop a table that is in use ends with everything dropped.

## Main statements

* `Session.Reachable.destructions_eq_one`: when everything was dropped, every element that was ever
  made has been destroyed once.
* `Session.Reachable.destroyed_once`: that, what destroys an element, and when that is done.
-/

namespace HashIndex.Script.Session

variable {K : Type} {s : Session K} {e : ElementId} {tasks : List (Task K)}
  {calls : List (Call (Item K) K)} {replies : List (Reply (Item K))}

theorem Reachable.balanced (h : Reachable calls s) :
    ∃ replies, Store.empty.callAll calls = .ok (replies, s.store) ∧
      s.store.Balanced (calls.zip replies) := by
  obtain ⟨replies, l, hcalls, hstores, hs⟩ := h.sound
  exact ⟨replies, hstores, hs.agrees.balanced (Ledger.balanced_of_callAll hcalls)⟩

/-- Every place on the heap was taken by a call that made an element. -/
theorem Reachable.exists_create (h : Reachable calls s)
    (hstores : Store.empty.callAll calls = .ok (replies, s.store))
    (he : e < s.store.heap.size) : ∃ v, (.create v, .created e) ∈ calls.zip replies := by
  obtain ⟨_, l, hcalls, hstores', hs⟩ := h.sound
  obtain ⟨rfl, -⟩ := Prod.mk.inj (Except.ok.inj (hstores'.symm.trans hstores))
  have hplace := (Ledger.balanced_of_callAll hcalls).places e
  rw [← hs.agrees.elements, decide_eq_true he, Bool.toNat_true] at hplace
  obtain ⟨⟨c, reply⟩, hmem, hmakes⟩ := List.countP_pos_iff.mp (hplace ▸ Nat.one_pos)
  unfold makes at hmakes
  split at hmakes
  next v f heq =>
    obtain ⟨rfl, rfl⟩ := Prod.mk.inj heq
    exact ⟨v, of_decide_eq_true hmakes ▸ hmem⟩
  next => cases hmakes

/-- When everything was dropped, every element that was ever made has been destroyed once. -/
theorem Reachable.destructions_eq_one (h : Reachable calls s) (hdropped : s.Dropped) :
    ∃ replies, Store.empty.callAll calls = .ok (replies, s.store) ∧
      ∀ e v, (.create v, .created e) ∈ calls.zip replies →
        destructions (calls.zip replies) e = 1 := by
  obtain ⟨replies, hstores, hbalanced⟩ := h.balanced
  exact ⟨replies, hstores, fun e v hcreate =>
    hbalanced.destructions_eq_one (h.heap_eq_none hdropped e) hcreate⟩

/-- For a task that puts a handle, the reference is the last one if there is no other handle and
none that a table had. -/
theorem lastReference_iff (htasks : s.tasks = .put e :: tasks) :
    s.LastReference e ↔
      ¬s.store.Linked e ∧ s.handleList.count e = 1 ∧ s.pendingList.count e = 0 := by
  have hpos : 0 < s.handleList.count e :=
    List.count_pos_iff.mpr (by simp [handleList, htasks, Task.handles])
  refine and_congr_right fun _ => ?_
  omega

/-- An element is destroyed by putting the last reference to it and by nothing else, and when
everything was dropped, every element has been destroyed once. A script gets that far unless it
comes to drop a table that is in use. -/
theorem Reachable.destroyed_once (h : Reachable calls s) :
    (∃ replies, Store.empty.callAll calls = .ok (replies, s.store) ∧
      s.store.Balanced (calls.zip replies) ∧
      (s.Dropped → ∀ e v, (.create v, .created e) ∈ calls.zip replies →
        destructions (calls.zip replies) e = 1)) ∧
    (∀ task tasks e, s.tasks = task :: tasks → task.puts? = some e →
      ∃ s', { s with tasks := tasks }.perform task = .ok s' ∧
        s.Puts e (fun last => task.afterPut last ++ tasks) s') ∧
    (∀ e tasks, s.tasks = .put e :: tasks → (s.LastReference e ↔
      ¬s.store.Linked e ∧ s.handleList.count e = 1 ∧ s.pendingList.count e = 0)) ∧
    (∀ s' e x, Moves [] s s' → s.store.heap.get? e = some x →
      (∃ y, s'.store.heap.get? e = some y ∧ y.value = x.value) ∨
        s'.store.heap.get? e = none ∧ s.LastReference e ∧
          ∃ task tasks, s.tasks = task :: tasks ∧ task.puts? = some e ∧
            { s with tasks := tasks }.perform task = .ok s') ∧
    (∀ s' e, Moves [] s s' → s.store.Linked e → ∃ y, s'.store.heap.get? e = some y) ∧
    (s.tasks = [] → s.handles.values = [] → s.tables.values = [] → s.Dropped) ∧
    ∀ steps : List (Step K),
      (report steps = .error .tableInUse ∧ ∃ s, PassesThrough steps .initial s ∧ s.Conflict) ∨
      ∃ outcomes s₀ calls s replies, Session.initial.takeAll steps = .ok (outcomes, s₀) ∧
        s₀.finish = .ok s ∧ report steps = .ok ⟨outcomes, s.events.reverse⟩ ∧
        Reachable calls s ∧ s.Dropped ∧ Store.empty.callAll calls = .ok (replies, s.store) ∧
        ∀ e v, (.create v, .created e) ∈ calls.zip replies →
          destructions (calls.zip replies) e = 1 := by
  refine ⟨?_, fun task tasks e htasks hputs => h.puts htasks hputs,
    fun e tasks htasks => lastReference_iff htasks,
    fun s' e x hmoves hx => h.lasts hx hmoves, fun s' e hmoves hlinked => ?_, h.dropped,
    fun steps => ?_⟩
  · obtain ⟨replies, hstores, hbalanced⟩ := h.balanced
    exact ⟨replies, hstores, hbalanced, fun hdropped e v hcreate =>
      hbalanced.destructions_eq_one (h.heap_eq_none hdropped e) hcreate⟩
  · obtain ⟨-, l, -, -, hs⟩ := h.sound
    obtain ⟨x, hx⟩ := hs.exists_of_linked hlinked
    obtain ⟨y, hy, -⟩ | ⟨-, ⟨hunlinked, -⟩, -⟩ := h.lasts hx hmoves
    · exact ⟨y, hy⟩
    · exact absurd hlinked hunlinked
  · have hinitial : Reachable [] (Session.initial : Session K) := .initial
    refine (hinitial.exists_finish rfl steps).imp ?_ ?_
    · exact fun hconflict => ⟨report_eq_error_iff.mpr ⟨rfl, hconflict⟩, hconflict⟩
    · rintro ⟨outcomes, s₀, s, calls, htake, hfinish, h, -, -, -, hdropped⟩
      obtain ⟨replies, hstores, hdestroyed⟩ := h.destructions_eq_one hdropped
      refine ⟨outcomes, s₀, calls, s, replies, htake, hfinish, ?_, h, hdropped, hstores, hdestroyed⟩
      simp only [report, htake, hfinish, Fault.ok_bind, Fault.pure_eq_ok]

/-- A script makes three elements, and the hooks that run when everything is dropped make two more.
Each of the five is made once and destroyed once. -/
theorem Reachable.destroyed_once_of_moving :
    ∃ (outcomes : List (Outcome Nat)) (calls : List (Call (Item Nat) Nat)) (s₀ s : Session Nat)
      (replies : List (Reply (Item Nat))),
      Session.initial.takeAll movingScript = .ok (outcomes, s₀) ∧
      s₀.finish = .ok s ∧ report movingScript = .ok ⟨outcomes, s.events.reverse⟩ ∧
      Reachable calls s ∧ s.Dropped ∧ Store.empty.callAll calls = .ok (replies, s.store) ∧
      s.buried = ["d", "c", "b", "a", "e"] ∧ s.store.heap.size = 5 ∧
      ∀ e < 5, creations (calls.zip replies) e = 1 ∧ destructions (calls.zip replies) e = 1 := by
  obtain ⟨outcomes, s₀, s, htake, hfinish, hburied, hsize⟩ := exists_finish_moving
  have hreport : report movingScript = .ok ⟨outcomes, s.events.reverse⟩ := by
    simp only [report, htake, hfinish, Fault.ok_bind, Fault.pure_eq_ok]
  obtain ⟨-, -, -, -, -, -, hscripts⟩ := Reachable.destroyed_once (K := Nat) .initial
  obtain ⟨hfault, -⟩ | ⟨_, _, calls, _, _, htake', hfinish', -, h, hdropped, -⟩ :=
    hscripts movingScript
  · cases hfault.symm.trans hreport
  obtain ⟨-, rfl⟩ := Prod.mk.inj (Except.ok.inj (htake.symm.trans htake'))
  obtain rfl := Except.ok.inj (hfinish.symm.trans hfinish')
  obtain ⟨⟨replies, hstores, hbalanced, hdestroyed⟩, -⟩ := Reachable.destroyed_once h
  refine ⟨outcomes, calls, s₀, s, replies, htake, hfinish, hreport, h, hdropped, hstores,
    hburied, hsize, fun e he => ?_⟩
  obtain ⟨v, hcreate⟩ := h.exists_create hstores (hsize ▸ he)
  exact ⟨Nat.le_antisymm (hbalanced.creations_le e) (Ledger.creations_pos hcreate),
    hdestroyed hdropped e v hcreate⟩

end HashIndex.Script.Session
