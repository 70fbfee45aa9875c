import HashIndex.Proofs.Call.Run
import HashIndex.Proofs.Call.Trace

/-!
# The life of an element

An element is made by one call, and it is destroyed by at most one, the one that puts the last
reference to it. Its value goes out as it came in.

## Main definitions

* `creations`, `destructions`: how often a trace makes or destroys an element.
* `Ledger.Balanced`, `Store.Balanced`: what was made is there or was destroyed.

## Main statements

* `Ledger.balanced_of_callAll`: so it is after any calls.
-/

namespace HashIndex

variable {V K : Type}

def makes (e : ElementId) : Call V K × Reply V → Bool
  | (.create _, .created f) => f = e
  | _ => false

/-- Whether a call destroyed an element, whose value was handed to its release then. -/
def destroys (e : ElementId) : Call V K × Reply V → Bool
  | (.put f, .destroyed (some _)) => f = e
  | _ => false

def creations (trace : List (Call V K × Reply V)) (e : ElementId) : Nat := trace.countP (makes e)

def destructions (trace : List (Call V K × Reply V)) (e : ElementId) : Nat :=
  trace.countP (destroys e)

/-- Every element was made at most once, it is there as long as it was not destroyed, and it is
destroyed with the value that it was made with. -/
structure Store.Balanced (s : Store V K) (trace : List (Call V K × Reply V)) : Prop where
  creations_le : ∀ e, creations trace e ≤ 1
  balance : ∀ e, destructions trace e + (if (s.heap.get? e).isSome then 1 else 0) =
    creations trace e
  value : ∀ e v w release, (.create v, .created e) ∈ trace →
    (.put e, .destroyed (some (w, release))) ∈ trace → w = v

namespace Ledger

variable {l l' : Ledger V K} {c : Call V K} {reply : Reply V} {e : ElementId}
  {trace : List (Call V K × Reply V)} {calls : List (Call V K)} {replies : List (Reply V)}

theorem creations_concat (trace : List (Call V K × Reply V)) (event : Call V K × Reply V)
    (e : ElementId) :
    creations (trace ++ [event]) e = creations trace e + (makes e event).toNat := by
  simp only [creations, List.countP_append, List.countP_singleton]
  cases makes e event <;> rfl

theorem destructions_concat (trace : List (Call V K × Reply V)) (event : Call V K × Reply V)
    (e : ElementId) :
    destructions (trace ++ [event]) e = destructions trace e + (destroys e event).toNat := by
  simp only [destructions, List.countP_append, List.countP_singleton]
  cases destroys e event <;> rfl

theorem Yields.length_accounts {es : List ElementId} (h : l.Yields es l') :
    l'.accounts.length = l.accounts.length := by
  induction h with
  | refl => rfl
  | lend _ _ ih | detach _ _ _ ih =>
    rw [← ih]
    exact length_accounts_updateAccount _ _ _

theorem Effect.length_accounts (h : l.Effect c reply l') (hc : ∀ value, c ≠ .create value) :
    l'.accounts.length = l.accounts.length := by
  cases h with
  | create value => exact absurd rfl (hc value)
  | put hput =>
    simp only [Ledger.put, Option.bind_eq_bind, Option.bind_eq_some_iff, Option.pure_def] at hput
    obtain ⟨a, -, hput⟩ := hput
    split at hput <;> obtain ⟨-, rfl⟩ := Prod.mk.inj (Option.some.inj hput)
    · exact List.length_set ..
    · exact length_accounts_updateAccount _ _ _
  | createTable =>
    unfold Ledger.createTable
    split <;> rfl
  | freeTable => rfl
  | link => exact length_accounts_updateAccount _ _ _
  | yields h => exact h.length_accounts

/-- Only making an element takes a place for it. -/
theorem place_of_call (hcovered : l.Covered) (h : l.call c = some (reply, l')) (e : ElementId) :
    (decide (e < l'.accounts.length)).toNat =
      (decide (e < l.accounts.length)).toNat + (makes e (c, reply)).toNat := by
  have heffect := effect_of_call hcovered h
  cases c with
  | create value =>
    obtain ⟨rfl, rfl⟩ := Prod.mk.inj (Option.some.inj h)
    simp only [create, makes, List.length_append, List.length_singleton]
    rcases Nat.lt_trichotomy e l.accounts.length with hlt | heq | hgt
    · simp [hlt, Nat.lt_succ_of_lt hlt, (Nat.ne_of_lt hlt).symm]
    · simp [heq]
    · simp [Nat.not_lt_of_gt hgt, Nat.not_lt_of_ge hgt, Nat.ne_of_lt hgt]
  | _ => simp [heffect.length_accounts, makes]

/-- An element comes with the call that makes it and goes with the one that destroys it. -/
theorem isSome_account?_of_call (hcovered : l.Covered) (h : l.call c = some (reply, l'))
    (e : ElementId) :
    (destroys e (c, reply)).toNat + (l'.account? e).isSome.toNat =
      (makes e (c, reply)).toNat + (l.account? e).isSome.toNat := by
  have heffect := effect_of_call hcovered h
  cases c with
  | create value =>
    obtain ⟨rfl, rfl⟩ := Prod.mk.inj (Option.some.inj h)
    rw [account?_create]
    by_cases he : e = l.accounts.length
    · subst he
      simp [makes, destroys, account?_length]
    · simp [makes, destroys, he, Ne.symm he]
  | put f =>
    obtain ⟨⟨destroyed, l₁⟩, hput, h⟩ := Option.bind_eq_some_iff.mp h
    obtain ⟨rfl, rfl⟩ := Prod.mk.inj (Option.some.inj h)
    obtain ⟨-, a, ha, -, ⟨-, -, rfl, haccount⟩ | ⟨-, rfl, haccount⟩⟩ := put_cases hput
    all_goals
      rw [haccount]
      by_cases he : e = f
      · subst he
        simp [makes, destroys, ha]
      · simp [makes, destroys, he, Ne.symm he]
  | _ =>
    have hsame : (l'.account? e).isSome = (l.account? e).isSome := by
      rw [Bool.eq_iff_iff, Option.isSome_iff_exists, Option.isSome_iff_exists]
      constructor
      · rintro ⟨a', ha'⟩
        obtain ⟨hcreate, -⟩ | ⟨a, ha, -⟩ := heffect.exists_account_of ha'
        · cases hcreate
        · exact ⟨a, ha⟩
      · rintro ⟨a, ha⟩
        obtain ⟨hput, -⟩ | ⟨a', ha', -⟩ := heffect.exists_account ha
        · cases hput
        · exact ⟨a', ha'⟩
    simp [makes, destroys, hsame]

/-- What was made is there or was destroyed, and the value of an element is the one that it was made
with. -/
structure Balanced (l : Ledger V K) (trace : List (Call V K × Reply V)) : Prop where
  places : ∀ e, creations trace e = (decide (e < l.accounts.length)).toNat
  balance : ∀ e, destructions trace e + (l.account? e).isSome.toNat = creations trace e
  value : ∀ e v, (.create v, .created e) ∈ trace →
    (∀ a, l.account? e = some a → a.value = v) ∧
      ∀ w release, (.put e, .destroyed (some (w, release))) ∈ trace → w = v

theorem creations_pos {v : V} (h : (.create v, .created e) ∈ trace) : 0 < creations trace e :=
  List.countP_pos_iff.mpr ⟨_, h, by simp [makes]⟩

theorem destructions_pos {destroyed : V × Release}
    (h : (.put e, .destroyed (some destroyed)) ∈ trace) : 0 < destructions trace e :=
  List.countP_pos_iff.mpr ⟨_, h, by simp [destroys]⟩

theorem exists_account_of_destroyed {destroyed : V × Release}
    (h : l.call (.put e) = some (.destroyed (some destroyed), l')) :
    ∃ a, l.account? e = some a ∧ destroyed = (a.value, a.release) := by
  obtain ⟨⟨gone, l₁⟩, hput, h⟩ := Option.bind_eq_some_iff.mp h
  obtain ⟨heq, -⟩ := Prod.mk.inj (Option.some.inj h)
  obtain ⟨-, a, ha, -, ⟨-, -, rfl, -⟩ | ⟨-, rfl, -⟩⟩ := put_cases hput
  · exact ⟨a, ha, (Option.some.inj (Reply.destroyed.inj heq)).symm⟩
  · cases heq

/-- A call keeps the balance of what was made, what is there and what was destroyed. -/
theorem Balanced.call (hbalanced : l.Balanced trace) (hcovered : l.Covered)
    (h : l.call c = some (reply, l')) : l'.Balanced (trace ++ [(c, reply)]) := by
  have heffect := effect_of_call hcovered h
  have hplace := place_of_call hcovered h
  -- what is made has not been there, and has not been destroyed either
  have hnew : ∀ e, makes e (c, reply) = true →
      creations trace e = 0 ∧ destructions trace e = 0 := by
    intro e hmakes
    have hplace := hplace e
    have hcreations := hbalanced.places e
    have hbalance := hbalanced.balance e
    have hle := Bool.toNat_le (decide (e < l'.accounts.length))
    rw [hmakes, Bool.toNat_true] at hplace
    omega
  refine ⟨fun e => ?_, fun e => ?_, fun e v hcreate => ?_⟩
  · rw [creations_concat, hbalanced.places, hplace]
  · have hstep := isSome_account?_of_call hcovered h e
    have hbalance := hbalanced.balance e
    rw [creations_concat, destructions_concat]
    omega
  · rcases List.mem_append.mp hcreate with hold | hnow
    · obtain ⟨hvalue, hdestroyed⟩ := hbalanced.value e v hold
      refine ⟨fun a' ha' => ?_, fun w release hput => ?_⟩
      · obtain ⟨rfl, rfl, -⟩ | ⟨a, ha, heq⟩ := heffect.exists_account_of ha'
        · have hpos := creations_pos hold
          have hzero := (hnew e (by simp [makes])).1
          omega
        · exact heq ▸ hvalue a ha
      · rcases List.mem_append.mp hput with hput | hnow
        · exact hdestroyed w release hput
        · obtain ⟨rfl, rfl⟩ := Prod.mk.inj (List.mem_singleton.mp hnow)
          obtain ⟨a, ha, heq⟩ := exists_account_of_destroyed h
          exact (Prod.mk.inj heq).1.trans (hvalue a ha)
    · obtain ⟨rfl, rfl⟩ := Prod.mk.inj (List.mem_singleton.mp hnow)
      obtain ⟨hcreations, hdestructions⟩ := hnew e (by simp [makes])
      refine ⟨fun a' ha' => ?_, fun w release hput => ?_⟩
      · obtain ⟨heq, -⟩ | ⟨a, ha, -⟩ := heffect.exists_account_of ha'
        · exact (Call.create.inj heq).symm
        · have hbalance := hbalanced.balance e
          rw [ha, Option.isSome_some, Bool.toNat_true] at hbalance
          omega
      · rcases List.mem_append.mp hput with hput | hnow
        · have hpos := destructions_pos hput
          omega
        · cases List.mem_singleton.mp hnow

theorem balanced_of_callAll (h : empty.callAll calls = some (replies, l)) :
    l.Balanced (calls.zip replies) := by
  refine callAll_induction (motive := fun trace l => l.Balanced trace) ?_ ?_ h
  · exact ⟨fun e => by simp [creations, empty], fun e => by
      simp [creations, destructions, account?, empty], by simp⟩
  · exact fun trace l c reply l' hbalanced hcovered hcall => hbalanced.call hcovered hcall

end Ledger

/-- A store that agrees with a balanced ledger is balanced. -/
theorem Store.Agrees.balanced {s : Store V K} {l : Ledger V K}
    {trace : List (Call V K × Reply V)} (hs : s.Agrees l) (h : l.Balanced trace) :
    s.Balanced trace := by
  have hsome : ∀ e, (s.heap.get? e).isSome = (l.account? e).isSome := by
    intro e
    have hrel := hs.element e
    generalize s.heap.get? e = x? at hrel ⊢
    generalize l.account? e = a? at hrel ⊢
    cases hrel <;> rfl
  refine ⟨fun e => ?_, fun e => ?_, fun e v w release hcreate hput =>
    (h.value e v hcreate).2 w release hput⟩
  · rw [h.places]
    exact Bool.toNat_le _
  · rw [← h.balance, hsome]
    cases (l.account? e).isSome <;> rfl

/-- What was made and is not there any more has been destroyed once. -/
theorem Store.Balanced.destructions_eq_one {s : Store V K} {trace : List (Call V K × Reply V)}
    (h : s.Balanced trace) {e : ElementId} {v : V} (hgone : s.heap.get? e = none)
    (hcreate : (.create v, .created e) ∈ trace) : destructions trace e = 1 := by
  have hpos := Ledger.creations_pos hcreate
  have hle := h.creations_le e
  have hbalance := h.balance e
  rw [hgone, Option.isSome_none, if_neg Bool.false_ne_true] at hbalance
  omega

end HashIndex
