import HashIndex.Proofs.Call.CachedHash
import HashIndex.Proofs.Call.Lifetime

/-!
# Elements that leave a table

However elements are taken out of a table, the ledger of what is left says the same at every moment:
some elements are not in the table any more, some references are still to be put, and an element is
gone if it has left and nobody has a reference to it. So two ways to take out the same elements meet
as soon as both have put what they had to put.

## Main definitions

* `Ledger.Leaving`: elements have left a table, and some references are to be put yet.
* `Ledger.loss?`: what becomes of an element that leaves its table.

## Main statements

* `Ledger.Leaving.yields`, `Ledger.Leaving.remove`, `Ledger.Leaving.put`: what is done meanwhile.
* `Ledger.Leaving.unique`: it does not matter how the elements have left.
-/

namespace HashIndex

variable {V K : Type}

/-- An element that is destroyed, with its value and the release that it goes to. -/
abbrev Loss (V : Type) := ElementId × V × Release

namespace Ledger

/-- What is lost when an element leaves its table: nothing if there are references to it. -/
def loss? (l : Ledger V K) (e : ElementId) : Option (Loss V) :=
  (l.account? e).bind fun a =>
    if a.references = 0 then some (e, a.value, a.release) else none

/-- Compared with the ledger `l`, the elements `out` have left a table, and the references `owed`
are still to be put. Nothing else is different. -/
structure Leaving (l : Ledger V K) (t : TableId) (out owed : List ElementId) (l' : Ledger V K) :
    Prop where
  accounts : l'.accounts.length = l.accounts.length
  rosters : l'.rosters.length = l.rosters.length
  account : ∀ e, l'.account? e = (l.account? e).bind fun a =>
    if e ∈ out ∧ a.references + owed.count e = 0 then none
    else some { a with references := a.references + owed.count e }
  roster : ∀ u, l'.roster? u =
    if u = t then (l.roster? t).map fun r => r.without out else l.roster? u

variable {l l' l'' : Ledger V K} {t : TableId} {out out' owed owed' es taken : List ElementId}
  {e : ElementId} {r r' : Roster V K} {a : Account V}

/-! ## Ledgers that say the same -/

theorem eq_of_join_eq {α : Type} {xs ys : List (Option α)} (hlength : xs.length = ys.length)
    (hsame : ∀ i : Nat, xs[i]?.join = ys[i]?.join) : xs = ys := by
  refine List.ext_getElem hlength fun i hi hi' => ?_
  simpa [hi, hi'] using hsame i

theorem eq_of_same (haccounts : l'.accounts.length = l.accounts.length)
    (hrosters : l'.rosters.length = l.rosters.length)
    (haccount : ∀ e, l'.account? e = l.account? e) (hroster : ∀ t, l'.roster? t = l.roster? t) :
    l' = l :=
  congrArg₂ Ledger.mk (eq_of_join_eq haccounts haccount) (eq_of_join_eq hrosters hroster)

theorem Yields.length_rosters (h : l.Yields es l') : l'.rosters.length = l.rosters.length := by
  induction h with
  | refl => rfl
  | lend _ _ ih => exact ih
  | detach _ _ _ ih => exact (length_rosters_updateRoster _ _ _).trans ih

/-! ## Leaving -/

theorem Leaving.refl (l : Ledger V K) (t : TableId) : l.Leaving t [] [] l := by
  refine ⟨rfl, rfl, fun e => ?_, fun u => ?_⟩
  · cases l.account? e <;> simp
  · split
    · subst u
      cases l.roster? t <;> simp
    · rfl

/-- It does not matter how elements have left, and in which order references are to be put. -/
theorem Leaving.congr (h : l.Leaving t out owed l') (hout : ∀ e, e ∈ out' ↔ e ∈ out)
    (howed : owed'.Perm owed) : l.Leaving t out' owed' l' := by
  refine ⟨h.accounts, h.rosters, fun e => ?_, fun u => ?_⟩
  · rw [h.account]
    simp only [hout, howed.count_eq]
  · rw [h.roster]
    simp only [Roster.without, hout]

theorem Leaving.unique (h : l.Leaving t out owed l') (h' : l.Leaving t out owed l'') : l'' = l' :=
  eq_of_same (h'.accounts.trans h.accounts.symm) (h'.rosters.trans h.rosters.symm)
    (fun e => (h'.account e).trans (h.account e).symm)
    fun u => (h'.roster u).trans (h.roster u).symm

theorem Leaving.roster_self (h : l.Leaving t out owed l') (hr : l.roster? t = some r) :
    l'.roster? t = some (r.without out) := by
  rw [h.roster, if_pos rfl, hr, Option.map_some]

/-- More elements leave the table, and more references are handed out. -/
theorem Leaving.yields (h : l.Leaving t out owed l') (hyields : l'.Yields es l'')
    (hr : l'.roster? t = some r')
    (hroster : ∀ u, l''.roster? u = if u = t then some (r'.without taken) else l'.roster? u)
    (htaken : taken ⊆ es) (hnew : ∀ e ∈ es, e ∉ out) :
    l.Leaving t (out ++ taken) (es ++ owed) l'' := by
  refine ⟨hyields.length_accounts.trans h.accounts, hyields.length_rosters.trans h.rosters,
    fun e => ?_, fun u => ?_⟩
  · rw [hyields.account?_eq, h.account, List.count_append]
    cases l.account? e with
    | none => rfl
    | some a =>
      simp only [Option.bind_some, List.mem_append]
      by_cases hes : e ∈ es
      · have hpos := List.count_pos_iff.mpr hes
        rw [if_neg fun hgone => hnew e hes hgone.1, if_neg (by omega), Option.map_some]
        simp only [Nat.add_assoc, Nat.add_comm]
      · have hzero := List.count_eq_zero.mpr hes
        have hstays : e ∉ taken := fun he => hes (htaken he)
        simp only [hzero, hstays, or_false, Nat.zero_add, Nat.add_zero]
        split <;> rfl
  · rw [hroster, h.roster]
    split
    · rw [h.roster, if_pos rfl, Option.map_eq_some_iff] at hr
      obtain ⟨r, hr, rfl⟩ := hr
      rw [hr, Option.map_some, Roster.without_append]
    · rfl

/-- An element to which a reference is to be put leaves the table. -/
theorem Leaving.remove (h : l.Leaving t out owed l') (he : e ∈ owed) :
    l.Leaving t (out ++ [e]) owed (l'.updateRoster t fun r => r.remove e) := by
  refine ⟨h.accounts, (length_rosters_updateRoster _ _ _).trans h.rosters, fun f => ?_,
    fun u => ?_⟩
  · rw [account?_updateRoster, h.account]
    cases l.account? f with
    | none => rfl
    | some a =>
      simp only [Option.bind_some, List.mem_append, List.mem_singleton]
      by_cases hf : f = e
      · subst f
        have hpos := List.count_pos_iff.mpr he
        rw [if_neg (by omega), if_neg (by omega)]
      · simp only [hf, or_false]
  · rw [roster?_updateRoster]
    split
    · rw [h.roster, if_pos rfl, Option.map_map]
      congr 1
      funext r
      rw [Function.comp_apply, Roster.without_append, Roster.remove_eq_without]
    · rw [h.roster, if_neg ‹_›]

/-- An element that is in no other table is linked as long as it has not left. -/
theorem Leaving.isLinked_iff (h : l.Leaving t out owed l') (hr : l.roster? t = some r)
    (he : e ∈ r.elements)
    (hunique : ∀ u r', l.roster? u = some r' → e ∈ r'.elements → u = t) :
    l'.isLinked e = true ↔ e ∉ out := by
  rw [Ledger.isLinked_iff]
  constructor
  · rintro ⟨u, r', hr', he'⟩
    rw [h.roster] at hr'
    split at hr'
    · rw [hr, Option.map_some, Option.some.injEq] at hr'
      subst hr'
      exact (Roster.mem_elements_without.mp he').2
    · exact absurd (hunique u r' hr' he') ‹_›
  · exact fun hstays => ⟨t, _, h.roster_self hr, Roster.mem_elements_without.mpr ⟨he, hstays⟩⟩

/-- A reference is put, and if the element has left, it is lost unless there are others. -/
theorem Leaving.put (h : l.Leaving t out (e :: owed) l') (hr : l.roster? t = some r)
    (he : e ∈ r.elements) (ha : l.account? e = some a)
    (hunique : ∀ u r', l.roster? u = some r' → e ∈ r'.elements → u = t) (honce : e ∉ owed) :
    ∃ gone l'', l'.put e = some (gone, l'') ∧
      gone.map (fun b => (e, b.value, b.release)) = (if e ∈ out then l.loss? e else none) ∧
      l.Leaving t out owed l'' := by
  have hzero := List.count_eq_zero.mpr honce
  have ha' : l'.account? e = some { a with references := a.references + 1 } := by
    rw [h.account, ha, Option.bind_some, List.count_cons_self, hzero, if_neg (by omega)]
  have hheld : l'.held? e = some { a with references := a.references + 1 } :=
    held?_eq_some_iff.mpr ⟨ha', Nat.succ_pos _⟩
  have hlinked := h.isLinked_iff hr he hunique
  have hrest : ∀ f ≠ e, l'.account? f = (l.account? f).bind fun a =>
      if f ∈ out ∧ a.references + owed.count f = 0 then none
      else some { a with references := a.references + owed.count f } := by
    intro f hf
    rw [h.account, List.count_cons_of_ne (Ne.symm hf)]
  have hlast : (a.references + 1 = 1 ∧ l'.isLinked e = false) ↔ e ∈ out ∧ a.references = 0 := by
    rw [← Bool.not_eq_true, hlinked, not_not]
    constructor <;> rintro ⟨h₁, h₂⟩ <;> exact ⟨by grind, by grind⟩
  simp only [Ledger.put, hheld, Option.bind_eq_bind, Option.bind_some, Option.pure_def, hlast]
  by_cases hgone : e ∈ out ∧ a.references = 0
  · rw [if_pos hgone]
    refine ⟨_, _, rfl, ?_, ?_, h.rosters, fun f => ?_, h.roster⟩
    · simp [loss?, ha, hgone]
    · simpa using h.accounts
    · rw [account?_close]
      split
      · subst f
        rw [ha, Option.bind_some, hzero, Nat.add_zero, if_pos hgone]
      · exact hrest f ‹_›
  · rw [if_neg hgone]
    refine ⟨_, _, rfl, ?_, ?_, h.rosters, fun f => ?_, h.roster⟩
    · split
      next hout =>
        have hmore : a.references ≠ 0 := fun hnone => hgone ⟨hout, hnone⟩
        simp [loss?, ha, hmore]
      next => rfl
    · simpa using h.accounts
    · rw [account?_updateAccount]
      split
      · subst f
        rw [ha', ha, Option.bind_some, Option.map_some]
        simp only [hzero, Nat.add_zero, Nat.add_sub_cancel, if_neg hgone]
      · exact hrest f ‹_›

end Ledger

end HashIndex
