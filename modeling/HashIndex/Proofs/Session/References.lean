import HashIndex.Proofs.Agreement.WellFormed
import HashIndex.Proofs.Session.Reachable

/-!
# Reference accounting

The count of an element is the number of handles to it, one more if it is linked into a table, and
one more for each reference that a table had to it and that is still to be put. Nothing refers to an
element that is gone, and no count is ever taken below zero.

## Main statements

* `Session.Reachable.count_eq_references`: so it is in every session that is reachable.
-/

namespace HashIndex.Script.Session

variable {K : Type} {s : Session K} {l : Ledger (Item K) K} {calls : List (Call (Item K) K)}
  {inHand : List ElementId} {e : ElementId}

theorem Sound.count_eq (hs : s.Sound l []) {x : Element (Item K)}
    (hx : s.store.heap.get? e = some x) :
    x.count = s.handleList.count e + s.pendingList.count e + if x.isHashed then 1 else 0 := by
  obtain ⟨a, ha, hxa⟩ := hs.agrees.exists_account hx
  have hcustody := hs.custody e
  simp only [Ledger.references, ha, Option.map_some, Option.getD_some, List.count_nil,
    Nat.add_zero] at hcustody
  rw [hxa.count, hcustody]

theorem Sound.count_pos (hs : s.Sound l []) {x : Element (Item K)}
    (hx : s.store.heap.get? e = some x) : 1 ≤ x.count := by
  obtain ⟨a, ha, hxa⟩ := hs.agrees.exists_account hx
  have hcount := hxa.count
  rcases Nat.eq_zero_or_pos a.references with hzero | hpos
  · -- an element that only a table refers to is counted for that table
    have hlinked := hs.kept e a ha hzero
    rw [hs.agrees.isLinked_eq hx] at hlinked
    rw [hlinked, if_pos rfl] at hcount
    omega
  · omega

theorem Sound.exists_of_linked (hs : s.Sound l inHand) (he : s.store.Linked e) :
    ∃ x, s.store.heap.get? e = some x := by
  obtain ⟨t, r, hr, he⟩ := Ledger.isLinked_iff.mp (hs.agrees.linked_iff.mp he)
  obtain ⟨hash, he⟩ := Roster.mem_elements_iff.mp he
  obtain ⟨x, hx, -⟩ := hs.agrees.listed t r hr e hash he
  exact ⟨x, hx⟩

/-- Every reference is counted, and every count is that of references. -/
theorem Reachable.count_eq_references (h : Reachable calls s) :
    (∀ e x, s.store.heap.get? e = some x →
      x.count = s.handleList.count e + s.pendingList.count e + (if x.isHashed then 1 else 0) ∧
        1 ≤ x.count ∧ (x.isHashed = true ↔ s.store.Linked e)) ∧
      (∀ e, e ∈ s.handleList ∨ e ∈ s.pendingList ∨ s.store.Linked e →
        ∃ x, s.store.heap.get? e = some x) ∧
      s.Safe := by
  obtain ⟨-, l, -, -, hs⟩ := h.sound
  refine ⟨fun e x hx => ⟨hs.count_eq hx, hs.count_pos hx, hs.agrees.wellFormed.hashed e x hx⟩,
    fun e he => ?_, h.safe⟩
  rcases he with he | he | he
  · obtain ⟨a, ha⟩ := hs.held (.inl he)
    exact hs.exists_element ha
  · obtain ⟨a, ha⟩ := hs.held (.inr (.inl he))
    exact hs.exists_element ha
  · exact hs.exists_of_linked he

theorem Reachable.count_eq_references_of_linked :
    ∃ (calls : List (Call (Item Nat) Nat)) (s : Session Nat) (x : Element (Item Nat)),
      Reachable calls s ∧ s.store.heap.get? 0 = some x ∧
      s.handleList = [0] ∧ s.store.Linked 0 ∧ x.count = 2 := by
  obtain ⟨calls, s, x, h, htasks, hhandles, hx, hhashed⟩ := exists_reachable_linked
  obtain ⟨hcount, -, hlinked⟩ := (Reachable.count_eq_references h).1 0 x hx
  refine ⟨calls, s, x, h, hx, hhandles, hlinked.mp hhashed, ?_⟩
  simpa [pendingList, htasks, hhandles, hhashed] using hcount

end HashIndex.Script.Session
