import HashIndex.Sdbm.Repeated
import Mathlib.Algebra.BigOperators.Fin
import Mathlib.Data.Nat.ModEq
import Mathlib.Tactic.Ring

/-!
# The value of the sdbm hash

A step multiplies the hash by 65599 and adds the byte, modulo `2 ^ 32`. So a hash is the value of a
polynomial, whose coefficients are the bytes, at 65599. The multiplier is odd, so a step can be
undone: no two hashes fall together when more bytes are hashed, and one changed byte changes the
hash.

## Main definitions

* `Sdbm.polynomial`: the polynomial with the bytes as coefficients, at 65599.
* `Sdbm.wideStep`, `Sdbm.wideFold`: the recurrence in 64-bit arithmetic.
* `Sdbm.unstep`: the hash before a byte, from the hash after it.

## Main statements

* `Sdbm.closed_form`: hashes in closed form, of concatenations, and by the wider recurrence.
* `Sdbm.separates`: strings that differ in one byte have different hashes, and hashing more bytes
  keeps different hashes apart.
-/

namespace HashIndex.Sdbm

/-! ### One byte -/

/-- A step in terms of the multiplier. -/
theorem step_eq (byte : UInt8) (hash : UInt32) :
    step byte hash = hash * 65599 + byte.toUInt32 := by
  rw [← Affine.apply_ofByte, Affine.apply, Affine.ofByte, UInt32.mul_comm]

theorem toNat_step (byte : UInt8) (hash : UInt32) :
    (step byte hash).toNat = (hash.toNat * 65599 + byte.toNat) % 2 ^ 32 := by
  simp [step_eq]

@[simp]
theorem fold_nil (hash : UInt32) : fold hash [] = hash := rfl

@[simp]
theorem fold_cons (hash : UInt32) (byte : UInt8) (bytes : List UInt8) :
    fold hash (byte :: bytes) = fold (step byte hash) bytes := by
  simp only [fold, List.foldl_cons]

/-! ### Closed form -/

/-- The polynomial with the bytes as coefficients, the first byte leading, at 65599. -/
def polynomial (bytes : List UInt8) : Nat :=
  ∑ i : Fin bytes.length, bytes[i].toNat * 65599 ^ (bytes.length - 1 - i)

@[simp]
theorem polynomial_nil : polynomial [] = 0 := rfl

theorem polynomial_cons (byte : UInt8) (bytes : List UInt8) :
    polynomial (byte :: bytes) = byte.toNat * 65599 ^ bytes.length + polynomial bytes := by
  have hexponent (i : Fin bytes.length) : bytes.length - (i + 1) = bytes.length - 1 - i := by omega
  simp [polynomial, Fin.sum_univ_succ, hexponent]

/-- A fold in closed form. The hash that one step leaves may be taken before its reduction. -/
theorem toNat_fold (hash : UInt32) (bytes : List UInt8) :
    (fold hash bytes).toNat =
      (hash.toNat * 65599 ^ bytes.length + polynomial bytes) % 2 ^ 32 := by
  induction bytes generalizing hash with
  | nil => simp
  | cons byte bytes ih =>
    calc (fold hash (byte :: bytes)).toNat
        = ((hash.toNat * 65599 + byte.toNat) % 2 ^ 32 * 65599 ^ bytes.length +
            polynomial bytes) % 2 ^ 32 := by rw [fold_cons, ih, toNat_step]
      _ = ((hash.toNat * 65599 + byte.toNat) * 65599 ^ bytes.length +
            polynomial bytes) % 2 ^ 32 :=
          ((Nat.mod_modEq _ _).mul_right _).add_right _
      _ = (hash.toNat * 65599 ^ (byte :: bytes).length + polynomial (byte :: bytes)) % 2 ^ 32 := by
          rw [polynomial_cons, List.length_cons]
          ring_nf

theorem toNat_ofBytes (bytes : List UInt8) :
    (ofBytes bytes).toNat = polynomial bytes % 2 ^ 32 := by
  simpa [ofBytes] using toNat_fold 0 bytes

/-- A further string shifts the hash so far by its length, and adds its own hash. -/
theorem toNat_ofBytes_append (a b : List UInt8) :
    (ofBytes (a ++ b)).toNat =
      ((ofBytes a).toNat * 65599 ^ b.length + (ofBytes b).toNat) % 2 ^ 32 := by
  have hsplit : ofBytes (a ++ b) = fold (ofBytes a) b := fold_append 0 a b
  rw [hsplit, toNat_fold, toNat_ofBytes b]
  exact ((Nat.mod_modEq _ _).symm.add_left _)

/-- The bytes of a text are those of its characters, in order. -/
theorem utf8_eq (text : String) : utf8 text = text.toList.flatMap String.utf8EncodeChar := by
  have hencode : text.toUTF8 = (text.toList.flatMap String.utf8EncodeChar).toByteArray :=
    String.utf8Encode_toList.symm
  rw [utf8, hencode, List.data_toByteArray]

/-! ### Wider arithmetic -/

def wideStep (byte : UInt8) (hash : UInt64) : UInt64 :=
  byte.toUInt64 + (hash <<< 6) + (hash <<< 16) - hash

def wideFold (hash : UInt64) (bytes : List UInt8) : UInt64 :=
  bytes.foldl (fun hash byte => wideStep byte hash) hash

/-- The low half of a step depends on the low half of the hash only. -/
theorem toUInt32_wideStep (byte : UInt8) (hash : UInt64) :
    (wideStep byte hash).toUInt32 = step byte hash.toUInt32 := by
  apply UInt32.toNat_inj.mp
  have hlt := hash.toNat_lt
  rw [toNat_step]
  simp only [wideStep, UInt64.toNat_toUInt32, UInt64.toNat_sub, UInt64.toNat_add,
    UInt64.toNat_shiftLeft, UInt64.reduceToNat, UInt8.toNat_toUInt64, Nat.shiftLeft_eq,
    Nat.reduceMod, Nat.reducePow] at hlt ⊢
  omega

/-- The low half of the wider hash is the hash. -/
theorem toUInt32_wideFold (hash : UInt64) (bytes : List UInt8) :
    (wideFold hash bytes).toUInt32 = fold hash.toUInt32 bytes := by
  induction bytes generalizing hash with
  | nil => rfl
  | cons byte bytes ih => rw [fold_cons, ← toUInt32_wideStep, ← ih, wideFold, wideFold,
      List.foldl_cons]

/-- Hashes in closed form: a fold over bytes `b₀ … bₙ₋₁` from `hash` is
`hash * 65599 ^ n + ∑ bᵢ * 65599 ^ (n - 1 - i)` modulo `2 ^ 32`. So the hash of a concatenation is
known from the hashes of its parts, arithmetic with more bits gives the same low bits, and the hash
of a text is the polynomial of the bytes of its characters. -/
theorem closed_form :
    (∀ (hash : UInt32) (bytes : List UInt8), (fold hash bytes).toNat =
      (hash.toNat * 65599 ^ bytes.length +
        ∑ i : Fin bytes.length, bytes[i].toNat * 65599 ^ (bytes.length - 1 - i)) % 2 ^ 32) ∧
    (∀ a b : List UInt8, (ofBytes (a ++ b)).toNat =
      ((ofBytes a).toNat * 65599 ^ b.length + (ofBytes b).toNat) % 2 ^ 32) ∧
    (∀ bytes : List UInt8, ofBytes bytes = (wideFold 0 bytes).toUInt32) ∧
    ∀ text : String, (ofString text).toNat =
      polynomial (text.toList.flatMap String.utf8EncodeChar) % 2 ^ 32 := by
  refine ⟨toNat_fold, toNat_ofBytes_append, fun bytes => ?wide, fun text => ?text⟩
  case wide => exact (toUInt32_wideFold 0 bytes).symm
  case text => rw [ofString, utf8_eq, toNat_ofBytes]

/-! ### Undoing steps -/

/-- The hash before `byte`, from the hash after it: 2390421439 is the inverse of 65599. -/
def unstep (byte : UInt8) (hash : UInt32) : UInt32 := (hash - byte.toUInt32) * 2390421439

theorem unstep_step (byte : UInt8) : Function.LeftInverse (unstep byte) (step byte) := by
  intro hash
  rw [step_eq, unstep]
  grind

theorem step_unstep (byte : UInt8) : Function.RightInverse (unstep byte) (step byte) := by
  intro hash
  rw [step_eq, unstep]
  grind

/-- A byte permutes the hashes. -/
theorem bijective_step (byte : UInt8) : Function.Bijective (step byte) :=
  ⟨(unstep_step byte).injective, (step_unstep byte).surjective⟩

/-- So does a string. -/
theorem bijective_fold (bytes : List UInt8) : Function.Bijective (fold · bytes) := by
  induction bytes with
  | nil => exact Function.bijective_id
  | cons byte bytes ih => exact ih.comp (bijective_step byte)

/-- Different bytes lead from the same hash to different ones. -/
theorem step_injective_byte (hash : UInt32) : Function.Injective (step · hash) := by
  intro a b h
  have hwide : a.toUInt32 = b.toUInt32 := by
    simp only [step_eq] at h
    grind
  exact UInt8.toUInt32_inj.mp hwide

/-- Strings with the same beginning, different bytes after it and the same end. -/
theorem ofBytes_ne_of_byte_ne {a b : UInt8} (h : a ≠ b) (front back : List UInt8) :
    ofBytes (front ++ a :: back) ≠ ofBytes (front ++ b :: back) := by
  intro heq
  simp only [ofBytes, fold_append, fold_cons] at heq
  have hstep : step a (fold 0 front) = step b (fold 0 front) := (bijective_fold back).injective heq
  exact h (step_injective_byte _ hstep)

/-- Lists of one length that agree at every place but `i` have the same beginning and end. -/
theorem eq_front_back {x y : List UInt8} (hlength : x.length = y.length) {i : Nat}
    (hi : x[i]? ≠ y[i]?) (hother : ∀ j, x[j]? ≠ y[j]? → j = i) :
    ∃ front back a b, a ≠ b ∧ x = front ++ a :: back ∧ y = front ++ b :: back := by
  have hlt : i < x.length := by
    by_contra hge
    exact hi (by simp [← hlength, Nat.le_of_not_lt hge])
  have hagree (j : Nat) (hj : j ≠ i) : x[j]? = y[j]? := by
    by_contra hne
    exact hj (hother j hne)
  have hfront : x.take i = y.take i := by
    apply List.ext_getElem?
    intro j
    simp only [List.getElem?_take]
    split
    next hj => exact hagree j (by omega)
    next => rfl
  have hback : x.drop (i + 1) = y.drop (i + 1) := by
    apply List.ext_getElem?
    intro j
    simp only [List.getElem?_drop]
    exact hagree _ (by omega)
  have hlt' : i < y.length := hlength ▸ hlt
  refine ⟨x.take i, x.drop (i + 1), x[i], y[i], fun h => hi ?_, by simp, ?_⟩
  · rw [List.getElem?_eq_getElem hlt, List.getElem?_eq_getElem hlt', h]
  · rw [hfront, hback]
    simp

/-- Near strings are kept apart. Strings of one length that differ at exactly one place have
different hashes; a common end neither joins nor parts hashes; and a byte, or a string, permutes the
hashes that there are. -/
theorem separates :
    (∀ x y : List UInt8, x.length = y.length → (∃! i : Nat, x[i]? ≠ y[i]?) →
      ofBytes x ≠ ofBytes y) ∧
    (∀ a b back : List UInt8, ofBytes (a ++ back) = ofBytes (b ++ back) ↔ ofBytes a = ofBytes b) ∧
    (∀ byte : UInt8, Function.Bijective (step byte)) ∧
    ∀ bytes : List UInt8, Function.Bijective (fold · bytes) := by
  refine ⟨?near, ?suffix, bijective_step, bijective_fold⟩
  case near =>
    rintro x y hlength ⟨i, hi, hother⟩
    obtain ⟨front, back, a, b, hab, rfl, rfl⟩ := eq_front_back hlength hi hother
    exact ofBytes_ne_of_byte_ne hab front back
  case suffix =>
    intro a b back
    simp only [ofBytes, fold_append]
    exact (bijective_fold back).injective.eq_iff

/-- `abcd` and `abzd` have different hashes, since only their third bytes differ. -/
theorem ofBytes_abcd_ne_abzd :
    [97, 98, 99, 100].length = [97, 98, 122, 100].length ∧
    (∃! i : Nat, ([97, 98, 99, 100] : List UInt8)[i]? ≠ [97, 98, 122, 100][i]?) ∧
    ofBytes [97, 98, 99, 100] ≠ ofBytes [97, 98, 122, 100] := by
  have hunique : ∃! i : Nat, ([97, 98, 99, 100] : List UInt8)[i]? ≠ [97, 98, 122, 100][i]? := by
    refine ⟨2, by decide, fun i hi => ?_⟩
    match i with
    | 0 | 1 | 3 => exact absurd rfl hi
    | 2 => rfl
    | i + 4 => exact absurd rfl hi
  exact ⟨rfl, hunique, separates.1 _ _ rfl hunique⟩

end HashIndex.Sdbm
