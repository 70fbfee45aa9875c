import HashIndex.Proofs.Call.Rounding

/-!
# Selection of buckets

The bucket of a hash is reckoned in two places and in two ways: from the number of buckets that a
table has, and from the mask of its capacity. A capacity is a power of two, so both of them leave
the remainder of the hash by the number of buckets. This number is always that of a bucket, and the
buckets of a table are unions of those of a larger one.

## Main definitions

* `Table.Selects`: a hash selects a bucket of a table.

## Main statements

* `Table.selects`: so it is for every table that has the buckets of its capacity.
* `Table.slot_eq_of_slot_eq`: what a larger table has in one bucket, a smaller one has in one.
* `Store.bucket_selection`: what this says of new tables and of the tables of a run.
-/

namespace HashIndex

variable {V K V' K' : Type}

/-- A hash selects a bucket. The bucket that is found and the one that is reported are the same, the
remainder of the hash by the number of buckets, and there is such a bucket. -/
structure Table.Selects (t : Table V K) (hash : UInt32) (i : Nat) : Prop where
  remainder : i = hash.toNat % t.buckets.size
  slot : t.slot hash = i
  index : t.index hash = i
  lt_size : i < t.buckets.size
  chain : ∃ c, t.buckets[i]? = some c ∧ t.chain i = .ok c

namespace Capacity

/-- The mask of a power of two leaves the remainder. -/
theorem and_pred_size (c : Capacity) (n : Nat) : n &&& (c.size - 1) = n % c.size := by
  rw [← c.two_pow_log2, Nat.and_two_pow_sub_one_eq_mod]

theorem size_dvd_size {c d : Capacity} (hle : c.size ≤ d.size) : c.size ∣ d.size := by
  rw [← c.two_pow_log2, ← d.two_pow_log2] at hle ⊢
  exact Nat.pow_dvd_pow 2 ((Nat.pow_le_pow_iff_right Nat.one_lt_two).mp hle)

end Capacity

namespace Table

variable {t : Table V K}

theorem slot_eq_mod (t : Table V K) (hash : UInt32) :
    t.slot hash = hash.toNat % t.capacity.size := by
  rw [slot, UInt64.toNat_and, UInt32.toNat_toUInt64, Capacity.toNat_mask, Capacity.and_pred_size]

theorem index_eq_mod (hsize : t.buckets.size = t.capacity.size) (hash : UInt32) :
    t.index hash = hash.toNat % t.capacity.size := by
  rw [index, hsize, Capacity.and_pred_size]

/-- A table that has the buckets of its capacity has one for every hash. -/
theorem selects (hsize : t.buckets.size = t.capacity.size) (hash : UInt32) :
    t.Selects hash (hash.toNat % t.capacity.size) := by
  have hlt : hash.toNat % t.capacity.size < t.buckets.size := by
    rw [hsize]
    exact Nat.mod_lt _ t.capacity.size_pos
  have hchain := Array.getElem?_eq_getElem hlt
  exact ⟨by rw [hsize], t.slot_eq_mod hash, index_eq_mod hsize hash, hlt, _, hchain, by
    simp only [chain, hchain]⟩

/-- Hashes that come to the same bucket of a table do so in every smaller table. -/
theorem slot_eq_of_slot_eq {small : Table V K} {large : Table V' K'} {x y : UInt32}
    (hle : small.capacity.size ≤ large.capacity.size) (h : large.slot x = large.slot y) :
    small.slot x = small.slot y := by
  have hdvd := Capacity.size_dvd_size hle
  rw [slot_eq_mod, slot_eq_mod] at h ⊢
  calc x.toNat % small.capacity.size
      = x.toNat % large.capacity.size % small.capacity.size := (Nat.mod_mod_of_dvd _ hdvd).symm
    _ = y.toNat % large.capacity.size % small.capacity.size := by rw [h]
    _ = y.toNat % small.capacity.size := Nat.mod_mod_of_dvd _ hdvd

end Table

namespace Store

/-- A hash selects a bucket that is there, in a table that was just made and in a table of a run,
and the number that goes to the journal is that of the bucket which is used; when an element is
taken out, the second look at its bucket compares the same numbers. And hashes that come to the same
bucket of a table do so in every smaller one. -/
theorem bucket_selection :
    (∀ (V K : Type) (strategy : Strategy V K) (c : Capacity) (hash : UInt32),
      (Table.new strategy c).Selects hash (hash.toNat % c.size)) ∧
    (∀ (V K : Type) (trace : List (Call V K × Reply V)) (s : Store V K) (t : TableId)
      (table : Table V K) (hash : UInt32), Runs trace s → s.table? t = some table →
        table.Selects hash (hash.toNat % table.capacity.size) ∧
        s.select t hash = .ok (hash.toNat % table.capacity.size,
          s.note (.selected hash table.capacity.mask.toNat (hash.toNat % table.capacity.size)))) ∧
    ∀ (V K V' K' : Type) (small : Table V K) (large : Table V' K') (x y : UInt32),
      small.capacity.size ≤ large.capacity.size → large.slot x = large.slot y →
        small.slot x = small.slot y := by
  refine ⟨fun V K strategy c hash => ?new, fun V K trace s t table hash hruns ht => ?run,
    fun V K V' K' small large x y => Table.slot_eq_of_slot_eq⟩
  case new => exact Table.selects (t := Table.new strategy c) (by simp [Table.new]) hash
  case run =>
    have hsize := Capacity.size_buckets_of_runs hruns ht
    have hselects := Table.selects hsize hash
    exact ⟨hselects, by rw [select_eq ht, hselects.slot, hselects.index, hsize,
      Capacity.toNat_mask]⟩

/-- In a run that links an element, the hash 39 selects the eighth of 32 buckets; and hashes that
come to the same of 1024 buckets come to the same of 32. -/
theorem bucket_selection_of_linking :
    ∃ trace, ∃ s : Store Nat Nat, ∃ table, Runs trace s ∧ s.table? 0 = some table ∧
      table.capacity = .least ∧ table.Selects 39 7 ∧
      ∀ strategy : Strategy Nat Nat, table.capacity.size ≤ Capacity.standard.size ∧
        (Table.new strategy .standard).slot 39 = (Table.new strategy .standard).slot 1063 ∧
        table.slot 39 = table.slot 1063 := by
  obtain ⟨-, hrun, hsmaller⟩ := bucket_selection
  obtain ⟨s, hruns⟩ := exists_runs_linking
  obtain ⟨table, ht, -, hcapacity, -⟩ := hruns.lists.table 0 _ rfl
  have hcapacity : table.capacity = .least := hcapacity
  refine ⟨_, s, table, hruns, ht, hcapacity, ?_, fun strategy => ?_⟩
  · have hselects := (hrun _ _ _ s 0 table 39 hruns ht).1
    rw [hcapacity] at hselects
    exact hselects
  · have hle : table.capacity.size ≤ Capacity.standard.size := by
      rw [hcapacity]
      decide
    have hlarge : (Table.new strategy .standard).slot 39 =
        (Table.new strategy .standard).slot 1063 := by
      rw [Table.slot_eq_mod, Table.slot_eq_mod]
      change UInt32.toNat 39 % Capacity.standard.size = UInt32.toNat 1063 % Capacity.standard.size
      decide
    exact ⟨hle, hlarge, hsmaller _ _ _ _ table _ 39 1063 hle hlarge⟩

end Store

end HashIndex
