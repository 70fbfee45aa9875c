import HashIndex.Proofs.Call.Lifetime
import HashIndex.Proofs.Call.Refused

/-!
# What decides on the release of an element

The release of an element comes from the strategy of a table, and it is taken over when the element
is linked. No other call changes it: neither one that is refused nor one that takes the element out
of a table, and it outlives the table that it came from. So the last call that linked an element
says what becomes of its value.

## Main definitions

* `Decides`: the release that a trace decides on.

## Main statements

* `Decides.unique`: there is only one.
* `Store.Runs.decides`: it is the one that the element has.
* `Store.Runs.decides_of_destroyed`: it is the one that the value of the element is handed to.
-/

namespace HashIndex

variable {V K : Type}

theorem exists_of_link? {event : Call V K × Reply V} {e : ElementId}
    (h : link? e event ≠ none) : ∃ t key, event = (.hash t e key, .result (.ok ())) := by
  unfold link? at h
  split at h
  next t f key =>
    split at h
    · subst f
      exact ⟨t, key, rfl⟩
    · exact absurd rfl h
  next => exact absurd rfl h

/-- A trace decides on the release of the table into which the last call that linked an element
did so, and if no call linked the element, its value is just to be dropped. -/
inductive Decides (trace : List (Call V K × Reply V)) (e : ElementId) : Release → Prop
  | never (h : ∀ event ∈ trace, link? e event = none) : Decides trace e .drop
  | last {before after : List (Call V K × Reply V)} {t : TableId} {key : K} {s : Store V K}
    {table : Table V K} (htrace : trace = before ++ (.hash t e key, .result (.ok ())) :: after)
    (hbefore : Store.Runs before s) (htable : s.table? t = some table)
    (hafter : ∀ event ∈ after, link? e event = none) : Decides trace e table.strategy.release

section Decides

variable {trace : List (Call V K × Reply V)} {e : ElementId} {release release' : Release}

/-- An event that does not link the element leaves the decision as it is. -/
theorem Decides.concat {event : Call V K × Reply V} (h : Decides trace e release)
    (hlink : link? e event = none) : Decides (trace ++ [event]) e release := by
  have hend : ∀ events : List (Call V K × Reply V), (∀ event ∈ events, link? e event = none) →
      ∀ event' ∈ events ++ [event], link? e event' = none := by
    intro events hevents event' hmem
    rcases List.mem_append.mp hmem with hmem | hmem
    · exact hevents event' hmem
    · exact List.mem_singleton.mp hmem ▸ hlink
  cases h with
  | never h => exact .never (hend _ h)
  | last htrace hbefore htable hafter =>
    have hlonger := congrArg (· ++ [event]) htrace
    simp only [List.append_assoc, List.cons_append] at hlonger
    exact .last hlonger hbefore htable (hend _ hafter)

/-- The last call that linked an element is one call. -/
theorem before_eq_of_link {before after before' after' : List (Call V K × Reply V)}
    {event event' : Call V K × Reply V}
    (h : before ++ event :: after = before' ++ event' :: after')
    (hlink : link? e event ≠ none) (hlink' : link? e event' ≠ none)
    (hafter : ∀ event ∈ after, link? e event = none)
    (hafter' : ∀ event ∈ after', link? e event = none) : before = before' ∧ event = event' := by
  obtain ⟨rest, hbefore, hrest⟩ | ⟨rest, hbefore, hrest⟩ := List.append_eq_append_iff.mp h
  · cases rest with
    | nil => simp_all
    | cons first rest =>
      obtain ⟨-, rfl⟩ := List.cons.inj hrest
      exact absurd (hafter event' (List.mem_append_right _ List.mem_cons_self)) hlink'
  · cases rest with
    | nil => simp_all
    | cons first rest =>
      obtain ⟨-, rfl⟩ := List.cons.inj hrest
      exact absurd (hafter' event (List.mem_append_right _ List.mem_cons_self)) hlink

/-- A trace decides on one release only. -/
theorem Decides.unique (h : Decides trace e release) (h' : Decides trace e release') :
    release' = release := by
  have hlink : ∀ t key, link? e ((.hash t e key, .result (.ok ())) : Call V K × Reply V) ≠ none :=
    fun t key => by simp [link?]
  cases h with
  | never hnever =>
    cases h' with
    | never => rfl
    | last htrace =>
      exact absurd (hnever _ (htrace ▸ List.mem_append_right _ List.mem_cons_self)) (hlink _ _)
  | last htrace hbefore htable hafter =>
    cases h' with
    | never hnever =>
      exact absurd (hnever _ (htrace ▸ List.mem_append_right _ List.mem_cons_self)) (hlink _ _)
    | last htrace' hbefore' htable' hafter' =>
      obtain ⟨rfl, hevent⟩ :=
        before_eq_of_link (htrace.symm.trans htrace') (hlink _ _) (hlink _ _) hafter hafter'
      obtain ⟨rfl, -⟩ := Call.hash.inj (Prod.mk.inj hevent).1
      obtain rfl := hbefore.unique hbefore'
      rw [htable] at htable'
      rw [Option.some.inj htable']

end Decides

namespace Ledger

variable {l l' : Ledger V K} {c : Call V K} {reply : Reply V} {e : ElementId} {t : TableId}
  {key : K} {a' : Account V}

/-- A call that does not link an element leaves its release as it is; that of a new element is just
to drop the value. -/
theorem Effect.release (h : l.Effect c reply l') (hlink : link? e (c, reply) = none)
    (ha' : l'.account? e = some a') :
    (e = l.accounts.length ∧ a'.release = .drop) ∨
      ∃ a, l.account? e = some a ∧ a.release = a'.release := by
  cases h with
  | create value =>
    rw [account?_create] at ha'
    split at ha'
    next heq => exact .inl ⟨heq, by rw [← Option.some.inj ha']⟩
    next => exact .inr ⟨a', ha', rfl⟩
  | @put f destroyed l' h =>
    obtain ⟨-, b, hb, -, ⟨-, -, -, haccount⟩ | ⟨-, -, haccount⟩⟩ := put_cases h
    all_goals
      rw [haccount] at ha'
      split at ha'
    · cases ha'
    · exact .inr ⟨a', ha', rfl⟩
    · subst e
      obtain rfl := Option.some.inj ha'
      exact .inr ⟨b, hb, rfl⟩
    · exact .inr ⟨a', ha', rfl⟩
  | createTable strategy capacity =>
    exact .inr ⟨a', (account?_createTable l strategy capacity e).symm.trans ha', rfl⟩
  | freeTable => exact .inr ⟨a', ha', rfl⟩
  | @link u f key r b =>
    have hf : e ≠ f := by
      rintro rfl
      simp [link?] at hlink
    simp only [account?_updateAccount, account?_updateRoster, if_neg hf] at ha'
    exact .inr ⟨a', ha', rfl⟩
  | yields h =>
    obtain ⟨a, ha, rfl⟩ := h.exists_account_of ha'
    exact .inr ⟨a, ha, rfl⟩

/-- An element that is linked takes over the release of the table. -/
theorem release_of_link (h : l.call (.hash t e key) = some (.result (.ok ()), l'))
    (ha' : l'.account? e = some a') :
    ∃ r, l.roster? t = some r ∧ a'.release = r.strategy.release := by
  obtain ⟨⟨result, l₁⟩, hhash, h⟩ := Option.bind_eq_some_iff.mp h
  obtain ⟨hresult, rfl⟩ := Prod.mk.inj (Option.some.inj h)
  obtain rfl := Reply.result.inj hresult
  obtain ⟨r, a, hr, -, hcases⟩ := hash_cases hhash
  obtain ⟨-, -, -, -, hl'⟩ : r.strategy.equal a.value key = true ∧ l.isLinked e = false ∧
      l.find? r key = none ∧ Except.ok () = Except.ok (ε := Refusal) () ∧ l₁ = _ := by
    simpa using hcases
  rw [hl', account?_updateAccount, if_pos rfl, Option.map_eq_some_iff] at ha'
  obtain ⟨b, -, rfl⟩ := ha'
  exact ⟨r, hr, rfl⟩

end Ledger

namespace Store

variable {s s' : Store V K} {c : Call V K} {reply : Reply V} {e : ElementId} {t : TableId}
  {key : K} {x y : Element V} {trace rest : List (Call V K × Reply V)}

/-- Only elements that have been made are linked. -/
theorem Runs.lt_size_of_link (h : Runs trace s) {event : Call V K × Reply V}
    (hevent : event ∈ trace) (hlink : link? e event ≠ none) : e < s.heap.size := by
  induction h with
  | empty => cases hevent
  | @call trace s s' c reply h hpermits hcall ih =>
    obtain ⟨l, -, hs, hidle⟩ := h.exists_ledger
    obtain ⟨l', hcall', hs', -⟩ := hs.exists_ledger_call hidle hpermits hcall
    have hbefore : e < s.heap.size := by
      rcases List.mem_append.mp hevent with hevent | hnow
      · exact ih hevent
      · obtain ⟨t, key, rfl⟩ := exists_of_link? hlink
        obtain ⟨rfl, rfl⟩ := Prod.mk.inj (List.mem_singleton.mp hnow)
        obtain ⟨-, hpos⟩ := hpermits
        cases hx : s.heap.get? e with
        | some x => exact Heap.lt_size_of_get? hx
        | none => simp [references, hx] at hpos
    have hplace := Ledger.place_of_call hs.covered hcall' e
    rw [← hs.elements, ← hs'.elements] at hplace
    simp only [hbefore, decide_true, Bool.toNat_true] at hplace
    by_contra hnot
    simp only [hnot, decide_false, Bool.toNat_false] at hplace
    omega

/-- A call that does not link an element leaves its release as it is. -/
theorem Runs.release_eq (h : Runs trace s) (hpermits : s.Permits c)
    (hcall : s.call c = .ok (reply, s')) (hlink : link? e (c, reply) = none)
    (hx : s.heap.get? e = some x) (hy : s'.heap.get? e = some y) : y.release = x.release := by
  obtain ⟨l, -, hs, hidle⟩ := h.exists_ledger
  obtain ⟨l', hcall', hs', -⟩ := hs.exists_ledger_call hidle hpermits hcall
  obtain ⟨a, ha, hxa⟩ := hs.exists_account hx
  obtain ⟨a', ha', hya⟩ := hs'.exists_account hy
  obtain ⟨rfl, -⟩ | ⟨b, hb, hrelease⟩ :=
    (Ledger.effect_of_call hs.covered hcall').release hlink ha'
  · rw [Ledger.account?_length] at ha
    cases ha
  · obtain rfl := Option.some.inj (ha.symm.trans hb)
    exact hya.release.trans (hrelease.symm.trans hxa.release.symm)

/-- An element that is linked takes over the release of the table. -/
theorem Runs.release_of_link (h : Runs trace s) (hpermits : s.Permits (.hash t e key))
    (hcall : s.call (.hash t e key) = .ok (.result (.ok ()), s')) (hy : s'.heap.get? e = some y) :
    ∃ table, s.table? t = some table ∧ y.release = table.strategy.release := by
  obtain ⟨l, -, hs, hidle⟩ := h.exists_ledger
  obtain ⟨l', hcall', hs', -⟩ := hs.exists_ledger_call hidle hpermits hcall
  obtain ⟨a', ha', hya⟩ := hs'.exists_account hy
  obtain ⟨r, hr, hrelease⟩ := Ledger.release_of_link hcall' ha'
  obtain ⟨table, ht, htable⟩ := hs.exists_table hr
  exact ⟨table, ht, by rw [hya.release, hrelease, htable.strategy]⟩

/-- The release of an element is the one that the calls so far decide on. -/
theorem Runs.decides (h : Runs trace s) (hx : s.heap.get? e = some x) :
    Decides trace e x.release := by
  induction h generalizing x with
  | empty => simp [Store.empty, Heap.empty, Heap.get?] at hx
  | @call trace s s' c reply h hpermits hcall ih =>
    by_cases hlink : link? e (c, reply) = none
    · cases hbefore : s.heap.get? e with
      | some y =>
        rw [h.release_eq hpermits hcall hlink hbefore hx]
        exact (ih hbefore).concat hlink
      | none =>
        -- the call has made the element, so no call before spoke of it
        obtain ⟨l, -, hs, hidle⟩ := h.exists_ledger
        obtain ⟨l', hcall', hs', -⟩ := hs.exists_ledger_call hidle hpermits hcall
        obtain ⟨a', ha', hxa⟩ := hs'.exists_account hx
        obtain ⟨rfl, hdrop⟩ | ⟨a, ha, -⟩ :=
          (Ledger.effect_of_call hs.covered hcall').release hlink ha'
        · rw [hxa.release, hdrop]
          refine .concat (.never fun event hevent => ?_) hlink
          by_contra hnot
          exact (Nat.ne_of_lt (h.lt_size_of_link hevent hnot)) hs.elements.symm
        · obtain ⟨y, hy, -⟩ := hs.exists_element ha
          rw [hbefore] at hy
          cases hy
    · obtain ⟨t, key, heq⟩ := exists_of_link? hlink
      obtain ⟨rfl, rfl⟩ := Prod.mk.inj heq
      obtain ⟨table, htable, hrelease⟩ := h.release_of_link hpermits hcall hx
      rw [hrelease]
      exact .last rfl h htable (by simp)

theorem Runs.decides_iff (h : Runs trace s) (hx : s.heap.get? e = some x) {release : Release} :
    Decides trace e release ↔ release = x.release :=
  ⟨fun hdecides => (h.decides hx).unique hdecides, fun heq => heq ▸ h.decides hx⟩

/-- A run begins with shorter ones. -/
theorem Runs.exists_of_append (h : Runs (trace ++ rest) s') : ∃ s, Runs trace s := by
  induction rest using List.reverseRecOn generalizing s' with
  | nil => exact ⟨s', by simpa using h⟩
  | append_singleton rest event ih =>
    rw [← List.append_assoc] at h
    obtain ⟨s₁, h₁, -⟩ := h.exists_last
    exact ih h₁

/-- The value of an element that is destroyed goes to the release that the calls before decided
on. -/
theorem Runs.decides_of_destroyed {v : V} {release : Release}
    (h : Runs (trace ++ (.put e, .destroyed (some (v, release))) :: rest) s') :
    Decides trace e release := by
  rw [List.append_cons] at h
  obtain ⟨s₁, h₁⟩ := h.exists_of_append
  obtain ⟨s, h, hpermits, hcall⟩ := h₁.exists_last
  obtain ⟨l, -, hs, hidle⟩ := h.exists_ledger
  obtain ⟨l', hcall', -⟩ := hs.exists_ledger_call hidle hpermits hcall
  obtain ⟨a, ha, heq⟩ := Ledger.exists_account_of_destroyed hcall'
  obtain ⟨x, hx, hxa⟩ := hs.exists_element ha
  rw [(Prod.mk.inj heq).2, ← hxa.release]
  exact h.decides hx

end Store

end HashIndex
