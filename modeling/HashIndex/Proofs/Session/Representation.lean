import HashIndex.Proofs.Agreement.WellFormed
import HashIndex.Proofs.Call.Trace
import HashIndex.Proofs.Session.Reachable

/-!
# The words of a reachable store

What the words of a store say fits together at any time that a hook can see, and the hash that a
linked element has is that of the key under which it was linked.

## Main statements

* `Session.Reachable.store_wellFormed`: so it is in every session that is reachable.
-/

namespace HashIndex.Script.Session

variable {K : Type} {s : Session K} {calls : List (Call (Item K) K)}

theorem Sound.exists_entry {l : Ledger (Item K) K} {inHand : List ElementId} {t : TableId} {i : Nat}
    {e : ElementId} (hs : s.Sound l inHand) (he : s.store.InBucket t i e) :
    ∃ table r x, s.store.table? t = some table ∧ l.roster? t = some r ∧
      table.strategy = r.strategy ∧ s.store.heap.get? e = some x ∧ (e, x.hash) ∈ r.entries := by
  obtain ⟨r, hr, he⟩ := hs.agrees.inBucket_iff.mp he
  obtain ⟨⟨e, hash⟩, hmem, rfl⟩ := List.mem_map.mp he
  obtain ⟨hmem, -⟩ := Roster.mem_bucket_iff.mp hmem
  obtain ⟨x, hx, -, rfl⟩ := hs.agrees.listed t r hr e hash hmem
  obtain ⟨table, htable, hrel⟩ := hs.agrees.exists_table hr
  exact ⟨table, r, x, htable, hr, hrel.strategy, hx, hmem⟩

/-- The words of the store fit together, and a linked element has the hash of the key that it was
linked under. -/
theorem Reachable.store_wellFormed (h : Reachable calls s) :
    s.store.WellFormed ∧ s.Safe ∧ ∃ replies, Store.empty.callAll calls = .ok (replies, s.store) ∧
      ∀ t i e table x, s.store.InBucket t i e → s.store.table? t = some table →
        s.store.heap.get? e = some x →
          ∃ key, lastLink? (calls.zip replies) e = some (t, key) ∧
            x.hash = table.strategy.hash key := by
  obtain ⟨replies, l, hcalls, hstores, hs⟩ := h.sound
  refine ⟨hs.agrees.wellFormed, h.safe, replies, hstores, fun t i e table x he htable hx => ?_⟩
  obtain ⟨table', r, x', htable', hr, hstrategy, hx', hmem⟩ := hs.exists_entry he
  obtain rfl := Option.some.inj (htable.symm.trans htable')
  obtain rfl := Option.some.inj (hx.symm.trans hx')
  rw [hstrategy]
  obtain ⟨key, a, hlast, hhash, -⟩ := Ledger.recalls_of_callAll hcalls t r e x.hash hr hmem
  exact ⟨key, hlast, hhash⟩

/-- Three elements are in one bucket, and each has the hash of a key that it was linked under. -/
theorem Reachable.store_wellFormed_of_moving :
    ∃ (calls : List (Call (Item Nat) Nat)) (s : Session Nat) (replies : List (Reply (Item Nat)))
      (table : Table (Item Nat) Nat), Reachable calls s ∧ s.store.WellFormed ∧ s.Safe ∧
      Store.empty.callAll calls = .ok (replies, s.store) ∧ s.store.table? 0 = some table ∧
      ∀ e ∈ [2, 1, 0], s.store.InBucket 0 7 e ∧ ∃ x key, s.store.heap.get? e = some x ∧
        lastLink? (calls.zip replies) e = some (0, key) ∧ x.hash = table.strategy.hash key := by
  obtain ⟨calls, -, s, -, h, -, -, -, hin⟩ := exists_reachable_of_play 6 movingScript .ok
    (fun s _ => (do
      let c ← s.store.chain 0 7
      let elements ← c.elements s.store.heap
      return elements.map Prod.fst) = .ok [2, 1, 0]) (by decide +kernel)
  obtain ⟨c, hc, hin⟩ := Fault.bind_eq_ok_iff.mp hin
  obtain ⟨elements, helements, hin⟩ := Fault.bind_eq_ok_iff.mp hin
  have hin : ∀ e ∈ [2, 1, 0], s.store.InBucket 0 7 e := fun e he =>
    ⟨c, elements, hc, helements, Except.ok.inj hin ▸ he⟩
  obtain ⟨hwell, hsafe, replies, hstores, hhash⟩ := Reachable.store_wellFormed h
  obtain ⟨-, l, -, -, hs⟩ := h.sound
  obtain ⟨table, -, -, ht, -⟩ := hs.exists_entry (hin 0 (by decide))
  refine ⟨calls, s, replies, table, h, hwell, hsafe, hstores, ht, fun e he => ⟨hin e he, ?_⟩⟩
  obtain ⟨-, -, x, -, -, -, hx, -⟩ := hs.exists_entry (hin e he)
  obtain ⟨key, hlast, hkey⟩ := hhash 0 7 e table x (hin e he) ht hx
  exact ⟨x, key, hx, hlast, hkey⟩

end HashIndex.Script.Session
