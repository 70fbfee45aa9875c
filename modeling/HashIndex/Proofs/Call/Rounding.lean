import HashIndex.Proofs.Call.FlatList
import Mathlib.Data.Nat.Log
import Mathlib.Order.Bounds.Basic
import Mathlib.Data.Finset.Card

/-!
# Rounding to capacities

The capacity that serves a request is found by exponents: the least exponent whose power of two is
not below the request, raised to 5 and cut at 24. So rounding keeps the order of the requests, and a
capacity is rounded to itself.

## Main statements

* `Capacity.size_ofRequest`: the exponent of the capacity that serves a request.
* `Capacity.isLeast_size`, `Capacity.rounds`: this is the least power of two that serves it, and
  what follows for masks, exponents and tables.
-/

namespace HashIndex

/-- The least exponent whose power of two is not below `n`, by the exponent of the greatest power
below it. -/
theorem clog_eq_log2_pred {n : Nat} (h : 1 < n) : Nat.clog 2 n = (n - 1).log2 + 1 := by
  apply Nat.le_antisymm
  · have hlt : n - 1 < 2 ^ ((n - 1).log2 + 1) := Nat.lt_log2_self
    exact (Nat.clog_le_iff_le_pow Nat.one_lt_two).mpr (by omega)
  · have hle : 2 ^ (n - 1).log2 ≤ n - 1 := Nat.log2_self_le (by omega)
    exact (Nat.lt_clog_iff_pow_lt Nat.one_lt_two).mpr (by omega)

/-- The least power of two that is not below a value is found if its exponent is at most 63. -/
theorem nextPowerOfTwo?_eq (value : UInt64) :
    (nextPowerOfTwo? value).map UInt64.toNat =
      if Nat.clog 2 value.toNat ≤ 63 then some (2 ^ Nat.clog 2 value.toNat) else none := by
  unfold nextPowerOfTwo?
  split
  next hle =>
    have hle : value.toNat ≤ 1 := by simpa using UInt64.le_iff_toNat_le.mp hle
    simp [Nat.clog_of_right_le_one hle]
  next hgt =>
    have hgt : 1 < value.toNat := by simpa using UInt64.lt_iff_toNat_lt.mp (UInt64.not_le.mp hgt)
    have hone : (1 : UInt64) ≤ value := by
      rw [UInt64.le_iff_toNat_le]
      exact hgt.le
    have hlog : (value - 1).log2.toNat = (value.toNat - 1).log2 :=
      congrArg Nat.log2 (UInt64.toNat_sub_of_le _ _ hone)
    rw [clog_eq_log2_pred hgt, ← hlog]
    split
    next hlt =>
      have hle : (value - 1).log2.toNat < 63 := by simpa using UInt64.lt_iff_toNat_lt.mp hlt
      rw [if_pos (by omega), Option.map_some, toNat_one_shiftLeft hlt,
        Nat.one_shiftLeft]
    next hge =>
      have hle : 63 ≤ (value - 1).log2.toNat := by
        simpa using UInt64.le_iff_toNat_le.mp (UInt64.not_lt.mp hge)
      rw [if_neg (by omega), Option.map_none]

namespace Capacity

/-- The number of buckets is the power of two with the exponent. -/
theorem two_pow_log2 (c : Capacity) : 2 ^ c.log2.toNat = c.size := by
  obtain ⟨k, hk⟩ := c.isPowerOfTwo
  have hlog : c.log2.toNat = k := by
    change c.buckets.toNat.log2 = k
    rw [hk, Nat.log2_two_pow]
  rw [hlog, size, hk]

theorem log2_bounds (c : Capacity) : 5 ≤ c.log2.toNat ∧ c.log2.toNat ≤ 24 := by
  have hleast : 2 ^ 5 ≤ 2 ^ c.log2.toNat := by
    rw [two_pow_log2]
    exact UInt64.le_iff_toNat_le.mp c.least_le
  have hgreatest : 2 ^ c.log2.toNat ≤ 2 ^ 24 := by
    rw [two_pow_log2]
    exact UInt64.le_iff_toNat_le.mp c.le_greatest
  exact ⟨(Nat.pow_le_pow_iff_right Nat.one_lt_two).mp hleast,
    (Nat.pow_le_pow_iff_right Nat.one_lt_two).mp hgreatest⟩

/-- Capacities of the same size are the same. -/
theorem eq_of_size {c d : Capacity} (h : c.size = d.size) : c = d := by
  obtain ⟨buckets, _, _, _⟩ := c
  obtain ⟨buckets', _, _, _⟩ := d
  obtain rfl : buckets = buckets' := UInt64.toNat_inj.mp h
  rfl

/-- The exponent of the capacity that serves a request. -/
theorem size_ofRequest (value : UInt64) :
    (ofRequest value).size = 2 ^ min (max (Nat.clog 2 value.toNat) 5) 24 := by
  have hnext := nextPowerOfTwo?_eq value
  generalize Nat.clog 2 value.toNat = exponent at hnext ⊢
  unfold ofRequest
  split
  next hnone =>
    have hlarge : 63 < exponent := by
      by_contra hle
      rw [hnone, if_pos (by omega)] at hnext
      cases hnext
    rw [show min (max exponent 5) 24 = 24 by omega]
    rfl
  next power hsome =>
    have hpower : power.toNat = 2 ^ exponent := by
      rw [hsome] at hnext
      split at hnext
      next => exact Option.some.inj hnext
      next => cases hnext
    have hleast : 32 ≤ power ↔ 5 ≤ exponent := by
      rw [UInt64.le_iff_toNat_le, hpower]
      exact (Nat.pow_le_pow_iff_right Nat.one_lt_two : 2 ^ 5 ≤ 2 ^ exponent ↔ _)
    have hgreatest : power ≤ 16777216 ↔ exponent ≤ 24 := by
      rw [UInt64.le_iff_toNat_le, hpower]
      exact (Nat.pow_le_pow_iff_right Nat.one_lt_two : 2 ^ exponent ≤ 2 ^ 24 ↔ _)
    by_cases hle : 5 ≤ exponent
    · by_cases hge : exponent ≤ 24
      · rw [dif_pos (hleast.mpr hle), dif_pos (hgreatest.mpr hge),
          show min (max exponent 5) 24 = exponent by omega]
        exact hpower
      · rw [dif_pos (hleast.mpr hle), dif_neg (mt hgreatest.mp hge),
          show min (max exponent 5) 24 = 24 by omega]
        rfl
    · rw [dif_neg (mt hleast.mp hle), show min (max exponent 5) 24 = 5 by omega]
      rfl

/-- The power of two that serves a request is the least one that is not below it, or below 32. -/
theorem isLeast_power (n : Nat) :
    IsLeast {p : Nat | p.isPowerOfTwo ∧ n ≤ p ∧ 32 ≤ p} (2 ^ max (Nat.clog 2 n) 5) := by
  constructor
  · refine ⟨⟨_, rfl⟩, ?_, ?_⟩
    · calc n ≤ 2 ^ Nat.clog 2 n := Nat.le_pow_clog Nat.one_lt_two n
        _ ≤ 2 ^ max (Nat.clog 2 n) 5 := Nat.pow_le_pow_right (by decide) (Nat.le_max_left _ _)
    · exact Nat.pow_le_pow_right (by decide : 0 < 2) (Nat.le_max_right (Nat.clog 2 n) 5)
  · rintro p ⟨⟨k, rfl⟩, hn, hleast⟩
    have hlog : Nat.clog 2 n ≤ k := (Nat.clog_le_iff_le_pow Nat.one_lt_two).mpr hn
    have hfive : 2 ^ 5 ≤ 2 ^ k := hleast
    rw [Nat.pow_le_pow_iff_right Nat.one_lt_two] at hfive
    exact Nat.pow_le_pow_right (by decide) (by omega)

/-- A greater request gets no smaller capacity. -/
theorem size_ofRequest_mono {v w : UInt64} (h : v ≤ w) :
    (ofRequest v).size ≤ (ofRequest w).size := by
  have hlog := Nat.clog_mono_right 2 (UInt64.le_iff_toNat_le.mp h)
  rw [size_ofRequest, size_ofRequest]
  exact Nat.pow_le_pow_right (by decide) (by omega)

/-- A capacity serves the request for as many elements as it has buckets. -/
theorem ofRequest_buckets (c : Capacity) : ofRequest c.buckets = c := by
  have hbounds := c.log2_bounds
  have hlog : Nat.clog 2 c.buckets.toNat = c.log2.toNat := by
    change Nat.clog 2 c.size = c.log2.toNat
    rw [← two_pow_log2, Nat.clog_pow 2 _ Nat.one_lt_two]
  apply eq_of_size
  rw [size_ofRequest, hlog, show min (max c.log2.toNat 5) 24 = c.log2.toNat by omega, two_pow_log2]

/-- The ones of the mask are its lowest bits, as many as the exponent says. -/
theorem ones_mask (c : Capacity) :
    {i ∈ Finset.range 64 | c.mask.toNat.testBit i} = Finset.range c.log2.toNat := by
  have hle := c.log2_bounds.2
  ext i
  rw [toNat_mask, ← two_pow_log2]
  simp only [Nat.testBit_two_pow_sub_one, Finset.mem_filter, Finset.mem_range, decide_eq_true_eq]
  omega

/-- A table has as many buckets as its capacity says, whatever happened to it. -/
theorem size_buckets_of_runs {V K : Type} {trace : List (Call V K × Reply V)} {s : Store V K}
    (h : Store.Runs trace s) {t : TableId} {table : Table V K} (ht : s.table? t = some table) :
    table.buckets.size = table.capacity.size := by
  obtain ⟨l, -, hs, -⟩ := h.exists_ledger
  obtain ⟨r, -, htable⟩ := hs.exists_roster ht
  rw [htable.size, htable.capacity]

/-- A request gets the least power of two that is not below it and not below 32, unless that exceeds
`2 ^ 24`, which it gets then. So greater requests get no smaller capacities, and a capacity is
rounded to itself. The exponent, the mask and the ones of the mask are what they are for a power of
two; and the number of buckets of a table is a power of two between 32 and `2 ^ 24`. -/
theorem rounding :
    (∀ value : UInt64, ∃ p, IsLeast {p : Nat | p.isPowerOfTwo ∧ value.toNat ≤ p ∧ 32 ≤ p} p ∧
      (ofRequest value).size = if p ≤ 2 ^ 24 then p else 2 ^ 24) ∧
    (∀ v w : UInt64, v ≤ w → (ofRequest v).size ≤ (ofRequest w).size) ∧
    (∀ value : UInt64, ofRequest (ofRequest value).buckets = ofRequest value) ∧
    (∀ c : Capacity, 2 ^ c.log2.toNat = c.size ∧ c.mask.toNat + 1 = c.size ∧
      {i ∈ Finset.range 64 | c.mask.toNat.testBit i}.card = c.log2.toNat) ∧
    ∀ (V K : Type) (trace : List (Call V K × Reply V)) (s : Store V K) (t : TableId)
      (table : Table V K), Store.Runs trace s → s.table? t = some table →
        table.buckets.size = table.capacity.size ∧
          ∃ k, 5 ≤ k ∧ k ≤ 24 ∧ table.buckets.size = 2 ^ k := by
  refine ⟨fun value => ⟨_, isLeast_power value.toNat, ?least⟩, fun _ _ => size_ofRequest_mono,
    fun value => ofRequest_buckets _, fun c => ⟨c.two_pow_log2, ?mask, ?ones⟩, ?tables⟩
  case least =>
    rw [size_ofRequest]
    split
    next hle =>
      rw [Nat.pow_le_pow_iff_right Nat.one_lt_two] at hle
      rw [Nat.min_eq_left hle]
    next hgt =>
      rw [Nat.pow_le_pow_iff_right Nat.one_lt_two] at hgt
      rw [Nat.min_eq_right (by omega)]
  case mask =>
    have hpos := c.size_pos
    rw [toNat_mask]
    omega
  case ones => rw [ones_mask, Finset.card_range]
  case tables =>
    intro V K trace s t table hruns ht
    have hsize := size_buckets_of_runs hruns ht
    obtain ⟨hleast, hgreatest⟩ := table.capacity.log2_bounds
    exact ⟨hsize, _, hleast, hgreatest, hsize.trans table.capacity.two_pow_log2.symm⟩

/-- A request for 100 elements gets no more buckets than one that is too great to be rounded, and
the table of a run that links an element has a power of two of them. -/
theorem rounding_linking : (100 : UInt64) ≤ 9223372036854775809 ∧
    (ofRequest 100).size ≤ (ofRequest 9223372036854775809).size ∧
    ∃ trace, ∃ s : Store Nat Nat, ∃ table, Store.Runs trace s ∧ s.table? 0 = some table ∧
      ∃ k, 5 ≤ k ∧ k ≤ 24 ∧ table.buckets.size = 2 ^ k := by
  obtain ⟨-, hmono, -, -, htables⟩ := rounding
  obtain ⟨s, hruns⟩ := Store.exists_runs_linking
  have hle : (100 : UInt64) ≤ 9223372036854775809 := by decide
  obtain ⟨table, ht, -⟩ := hruns.lists.table 0 _ rfl
  exact ⟨hle, hmono _ _ hle, _, s, table, hruns, ht, (htables _ _ _ s 0 table hruns ht).2⟩

end Capacity

end HashIndex
