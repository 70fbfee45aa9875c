import HashIndex.Proofs.Agreement.Membership
import Mathlib.Algebra.Ring.Nat

/-!
# Well-formed stores

What a store keeps twice agrees: the links of the elements, the lengths of the chains, the owner
words and cached hashes, and the counters of the tables tell the same story. A store that agrees
with a ledger is well formed, and the chain of a bucket is the bucket of the roster.

## Main definitions

* `Store.InBucket`, `Store.Linked`: what the chains say of an element.
* `Store.WellFormed`: the words of a store fit together.

## Main statements

* `Store.Agrees.wellFormed`: a store that agrees with a ledger is well formed.
* `Store.Agrees.elements_eq`: its chains are the buckets of the rosters.
-/

namespace HashIndex

variable {V K : Type}

namespace Store

def InBucket (s : Store V K) (t : TableId) (i : Nat) (e : ElementId) : Prop :=
  ∃ c elements, s.chain t i = .ok c ∧ c.elements s.heap = .ok elements ∧
    e ∈ elements.map Prod.fst

/-- An element is in a chain of some table. -/
def Linked (s : Store V K) (e : ElementId) : Prop := ∃ t i, s.InBucket t i e

/-- The words of a store fit together. -/
structure WellFormed (s : Store V K) : Prop where
  size : ∀ t table, s.table? t = some table → table.buckets.size = table.capacity.size
  /-- The links lead through the elements of a chain and back, its length is their number, and they
  are those that have the table for their owner and a hash that selects the bucket. -/
  chain : ∀ t table i c, s.table? t = some table → table.buckets[i]? = some c →
    ∃ es, c.Represents s.heap es ∧ ∀ e, e ∈ es ↔
      ∃ x, s.heap.get? e = some x ∧ x.owner = .table t ∧ table.slot x.hash = i
  unique : ∀ t u i j e, s.InBucket t i e → s.InBucket u j e → t = u ∧ i = j
  unlinked : ∀ e x, s.heap.get? e = some x → ¬s.Linked e →
    x.owner = .nobody ∧ x.prev = none ∧ x.next = none
  unclaimed : ∀ e x, s.heap.get? e = some x → x.owner ≠ .claimed
  hashed : ∀ e x, s.heap.get? e = some x → (x.isHashed = true ↔ s.Linked e)
  entries : ∀ t table, s.table? t = some table →
    table.entries = (table.buckets.toList.map Chain.length).sum

end Store

theorem Heap.map_pick {h : Heap V} {entries : List (ElementId × UInt32)}
    (hread : ∀ entry ∈ entries, ∃ x, h.get? entry.1 = some x ∧ x.hash = entry.2) :
    (h.pick (entries.map Prod.fst)).map (fun (e, x) => (e, x.hash)) = entries := by
  induction entries with
  | nil => rfl
  | cons entry entries ih =>
    obtain ⟨e, hash⟩ := entry
    obtain ⟨x, hx, rfl⟩ := hread (e, hash) (by simp)
    rw [List.map_cons, Heap.pick_cons hx, List.map_cons,
      ih fun entry hentry => hread entry (List.mem_cons_of_mem _ hentry)]

namespace Roster

theorem sum_length_filter {α : Type} (f : α → Nat) (items : List α) (n : Nat) :
    ((List.range n).map fun i => (items.filter fun item => f item = i).length).sum =
      (items.filter fun item => f item < n).length := by
  induction n with
  | zero => simp
  | succ n ih =>
    rw [List.range_succ, List.map_append, List.sum_append, ih, List.map_singleton,
      List.sum_singleton]
    clear ih
    induction items with
    | nil => rfl
    | cons item items ih =>
      simp only [List.filter_cons, decide_eq_true_eq]
      grind

theorem sum_length_bucket (r : Roster V K) :
    ((List.range r.capacity.size).map fun i => (r.bucket i).length).sum = r.entries.length := by
  have hsum := sum_length_filter (fun entry => r.slot entry.2) r.entries r.capacity.size
  rw [List.filter_eq_self.mpr fun entry _ => by simpa using r.slot_lt entry.2] at hsum
  exact hsum

end Roster

namespace Store

variable {s : Store V K} {l : Ledger V K} {t : TableId} {i : Nat} {e : ElementId}
  {r : Roster V K} {table : Table V K} {x : Element V}

theorem Agrees.mem_bucket_iff (hs : s.Agrees l) (hr : l.roster? t = some r) :
    e ∈ (r.bucket i).map Prod.fst ↔
      ∃ x, s.heap.get? e = some x ∧ x.owner = .table t ∧ r.slot x.hash = i := by
  constructor
  · intro he
    obtain ⟨⟨e, hash⟩, hmem, rfl⟩ := List.mem_map.mp he
    obtain ⟨hmem, hslot⟩ := Roster.mem_bucket_iff.mp hmem
    obtain ⟨x, hx, howner, hhash⟩ := hs.listed t r hr e hash hmem
    exact ⟨x, hx, howner, hhash ▸ hslot⟩
  · rintro ⟨x, hx, howner, hslot⟩
    obtain ⟨hash, hmem⟩ := Roster.mem_elements_iff.mp ((hs.owner_eq_iff hx hr).mp howner)
    obtain ⟨y, hy, -, hhash⟩ := hs.listed t r hr e hash hmem
    obtain rfl := Option.some.inj (hx.symm.trans hy)
    exact List.mem_map_of_mem (Roster.mem_bucket_iff.mpr ⟨hmem, hhash ▸ hslot⟩)

/-- The chain of a bucket has the elements of the bucket of the roster, with their hashes. -/
theorem Agrees.elements_eq (hs : s.Agrees l) (hr : l.roster? t = some r)
    (hi : i < r.capacity.size) :
    ∃ c elements, s.chain t i = .ok c ∧ c.elements s.heap = .ok elements ∧
      elements.map (fun (e, x) => (e, x.hash)) = r.bucket i := by
  obtain ⟨table, ht, htable⟩ := hs.exists_table hr
  obtain ⟨c, hc, hrep⟩ := htable.chain i hi
  refine ⟨c, _, chain_eq ht hc, hrep.elements, Heap.map_pick fun entry hentry => ?_⟩
  obtain ⟨x, hx, -, hhash⟩ := hs.listed t r hr _ _ (Roster.mem_bucket_iff.mp hentry).1
  exact ⟨x, hx, hhash⟩

theorem exists_table_of_chain {c : Chain} (h : s.chain t i = .ok c) :
    ∃ table, s.table? t = some table ∧ table.buckets[i]? = some c := by
  simp only [Store.chain, Fault.bind_eq_ok_iff] at h
  obtain ⟨table, ht, hc⟩ := h
  unfold Store.table at ht
  unfold Table.chain at hc
  grind

/-- An element is in the chain of a bucket if its entry falls into that bucket. -/
theorem Agrees.inBucket_iff (hs : s.Agrees l) :
    s.InBucket t i e ↔ ∃ r, l.roster? t = some r ∧ e ∈ (r.bucket i).map Prod.fst := by
  constructor
  · rintro ⟨c, elements, hchain, helements, he⟩
    obtain ⟨table, ht, hc⟩ := exists_table_of_chain hchain
    obtain ⟨r, hr, htable⟩ := hs.exists_roster ht
    have hi : i < r.capacity.size := by
      rw [← htable.size]
      exact (Array.getElem?_eq_some_iff.mp hc).1
    obtain ⟨c', elements', hchain', helements', heq⟩ := hs.elements_eq hr hi
    obtain rfl := Except.ok.inj (hchain.symm.trans hchain')
    obtain rfl := Except.ok.inj (helements.symm.trans helements')
    refine ⟨r, hr, ?_⟩
    rw [← heq]
    simpa [List.map_map, Function.comp_def] using he
  · rintro ⟨r, hr, he⟩
    have hi : i < r.capacity.size := by
      obtain ⟨entry, hentry, -⟩ := List.mem_map.mp he
      exact (Roster.mem_bucket_iff.mp hentry).2 ▸ r.slot_lt entry.2
    obtain ⟨c, elements, hchain, helements, heq⟩ := hs.elements_eq hr hi
    refine ⟨c, elements, hchain, helements, ?_⟩
    rw [← heq] at he
    simpa [List.map_map, Function.comp_def] using he

theorem Agrees.linked_iff (hs : s.Agrees l) : s.Linked e ↔ l.isLinked e = true := by
  simp only [Linked, hs.inBucket_iff, Ledger.isLinked_iff]
  constructor
  · rintro ⟨t, i, r, hr, he⟩
    exact ⟨t, r, hr, (List.filter_sublist.map _).subset he⟩
  · rintro ⟨t, r, hr, he⟩
    obtain ⟨hash, he⟩ := Roster.mem_elements_iff.mp he
    exact ⟨t, r.slot hash, r, hr, List.mem_map_of_mem (Roster.mem_bucket_iff.mpr ⟨he, rfl⟩)⟩

/-- A store that agrees with a ledger is well-formed. -/
theorem Agrees.wellFormed (hs : s.Agrees l) : s.WellFormed := by
  have hhashed : ∀ e x, s.heap.get? e = some x → (x.isHashed = true ↔ s.Linked e) := by
    intro e x hx
    rw [hs.linked_iff, hs.isLinked_eq hx]
  refine ⟨?_, ?_, ?_, ?_, ?_, hhashed, ?_⟩
  · intro t table ht
    obtain ⟨r, -, htable⟩ := hs.exists_roster ht
    rw [htable.size, htable.capacity]
  · intro t table i c ht hc
    obtain ⟨r, hr, htable⟩ := hs.exists_roster ht
    have hi : i < r.capacity.size := by
      rw [← htable.size]
      exact (Array.getElem?_eq_some_iff.mp hc).1
    obtain ⟨c', hc', hrep⟩ := htable.chain i hi
    obtain rfl := Option.some.inj (hc.symm.trans hc')
    simp only [htable.slot_eq]
    exact ⟨_, hrep, fun e => hs.mem_bucket_iff hr⟩
  · intro t u i j e hi hj
    obtain ⟨r, hr, hi⟩ := hs.inBucket_iff.mp hi
    obtain ⟨r', hr', hj⟩ := hs.inBucket_iff.mp hj
    obtain ⟨x, hx, howner, hslot⟩ := (hs.mem_bucket_iff hr).mp hi
    obtain ⟨y, hy, howner', hslot'⟩ := (hs.mem_bucket_iff hr').mp hj
    obtain rfl := Option.some.inj (hx.symm.trans hy)
    obtain rfl : t = u := by simpa [howner] using howner'
    obtain rfl := Option.some.inj (hr.symm.trans hr')
    exact ⟨rfl, hslot.symm.trans hslot'⟩
  · intro e x hx hout
    obtain ⟨a, -, hxa⟩ := hs.exists_account hx
    have hnot : x.isHashed = false := by
      rw [← Bool.not_eq_true, hhashed e x hx]
      exact hout
    refine ⟨?_, hxa.unlinked hnot⟩
    have hunclaimed := hxa.unclaimed
    unfold Element.isHashed at hnot
    cases howner : x.owner <;> simp_all
  · intro e x hx
    obtain ⟨a, -, hxa⟩ := hs.exists_account hx
    exact hxa.unclaimed
  · intro t table ht
    obtain ⟨r, hr, htable⟩ := hs.exists_roster ht
    rw [htable.entries, ← r.sum_length_bucket]
    congr 1
    refine List.ext_getElem (by simp [htable.size]) fun i hi _ => ?_
    obtain ⟨c, hc, hrep⟩ := htable.chain i (by simpa using hi)
    have hlength := hrep.length
    rw [List.length_map] at hlength
    obtain ⟨_, hc⟩ := Array.getElem?_eq_some_iff.mp hc
    simp [← hlength, hc]

end Store

end HashIndex
