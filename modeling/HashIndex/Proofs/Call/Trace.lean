import HashIndex.Proofs.Call.Effect

/-!
# Traces of calls

What holds of an empty ledger and is kept by every call holds after any calls. Some of it speaks of
the calls themselves: an element that is in a table was put there by the last call that linked it,
and its hash is that of the key that was given then.

## Main definitions

* `lastLink?`: the last call that linked an element.
* `Ledger.Recalls`: the tables are as the last calls that linked their elements made them.

## Main statements

* `Ledger.callAll_induction`, `Ledger.callAll_keeps`: induction over calls.
* `Ledger.recalls_of_callAll`: the hash of an element is that of the key it was linked under.
-/

namespace HashIndex

variable {V K : Type}

/-- The table and the key of a call that linked an element. -/
def link? (e : ElementId) : Call V K × Reply V → Option (TableId × K)
  | (.hash t f key, .result (.ok ())) => if f = e then some (t, key) else none
  | _ => none

/-- The table and the key of the last call that linked an element. -/
def lastLink? (trace : List (Call V K × Reply V)) (e : ElementId) : Option (TableId × K) :=
  trace.reverse.findSome? (link? e)

theorem lastLink?_concat (trace : List (Call V K × Reply V)) (c : Call V K) (reply : Reply V)
    (e : ElementId) :
    lastLink? (trace ++ [(c, reply)]) e = (link? e (c, reply)).or (lastLink? trace e) := by
  simp only [lastLink?, List.reverse_append, List.reverse_singleton, List.singleton_append,
    List.findSome?_cons]
  cases link? e (c, reply) <;> rfl

namespace Ledger

variable {l l' : Ledger V K} {c : Call V K} {reply : Reply V} {e : ElementId} {t : TableId}
  {trace : List (Call V K × Reply V)} {calls : List (Call V K)} {replies : List (Reply V)}

/-- What the empty ledger has and every call keeps is so after all calls. -/
theorem callAll_induction {motive : List (Call V K × Reply V) → Ledger V K → Prop}
    (hempty : motive [] empty)
    (hcall : ∀ trace l c reply l', motive trace l → l.Covered → l.call c = some (reply, l') →
      motive (trace ++ [(c, reply)]) l')
    (h : empty.callAll calls = some (replies, l)) : motive (calls.zip replies) l := by
  -- a store comes along, since it is what keeps the accounts of linked elements open
  have hall : ∀ (calls : List (Call V K)) (s₀ : Store V K) (l₀ : Ledger V K) trace replies,
      s₀.Agrees l₀ → s₀.locks = [] → motive trace l₀ → l₀.callAll calls = some (replies, l) →
      motive (trace ++ calls.zip replies) l := by
    intro calls
    induction calls with
    | nil =>
      intro s₀ l₀ trace replies _ _ hmotive h
      obtain ⟨rfl, rfl⟩ := by simpa [callAll] using h
      simpa using hmotive
    | cons c calls ih =>
      intro s₀ l₀ trace replies hs hidle hmotive h
      simp only [callAll, Option.bind_eq_bind, Option.bind_eq_some_iff, Option.pure_def,
        Option.some.injEq, Prod.mk.injEq, Prod.exists] at h
      obtain ⟨reply, l₁, hfirst, replies, l₂, hrest, rfl, rfl⟩ := h
      obtain ⟨s₁, -, hs₁, hidle₁⟩ := hs.call hidle hfirst
      have hkept := hcall trace l₀ c reply l₁ hmotive hs.covered hfirst
      have hnext := ih s₁ l₁ _ replies hs₁ hidle₁ hkept hrest
      simpa using hnext
  simpa using hall calls .empty empty [] replies Store.agrees_empty rfl hempty h

/-- What each of some calls keeps is so after all of them. -/
theorem callAll_keeps {s : Store V K} {motive : Ledger V K → Prop} (hs : s.Agrees l)
    (hidle : s.locks = []) (h : l.callAll calls = some (replies, l')) (hl : motive l)
    (hkeeps : ∀ c ∈ calls, ∀ l reply l', motive l → l.Covered → l.call c = some (reply, l') →
      motive l') : motive l' := by
  induction calls generalizing s l replies with
  | nil =>
    obtain ⟨-, rfl⟩ := by simpa [callAll] using h
    exact hl
  | cons c calls ih =>
    simp only [callAll, Option.bind_eq_bind, Option.bind_eq_some_iff, Option.pure_def,
      Option.some.injEq, Prod.mk.injEq, Prod.exists] at h
    obtain ⟨reply, l₁, hfirst, replies, l₂, hrest, rfl, rfl⟩ := h
    obtain ⟨s₁, -, hs₁, hidle₁⟩ := hs.call hidle hfirst
    exact ih hs₁ hidle₁ hrest (hkeeps c (by simp) l reply l₁ hl hs.covered hfirst)
      fun c hc => hkeeps c (List.mem_cons_of_mem _ hc)

/-- A call links only elements that are in no table. -/
theorem isLinked_of_link? {link : TableId × K} (h : l.call c = some (reply, l'))
    (hlink : link? e (c, reply) = some link) : l.isLinked e = false := by
  unfold link? at hlink
  split at hlink
  next t f key heq =>
    obtain ⟨rfl, rfl⟩ := Prod.mk.inj heq
    split at hlink
    · subst f
      obtain ⟨⟨result, l₁⟩, hhash, h⟩ := Option.bind_eq_some_iff.mp h
      obtain ⟨hresult, -⟩ := Prod.mk.inj (Option.some.inj h)
      obtain rfl := Reply.result.inj hresult
      obtain ⟨r, a, -, -, hcases⟩ := hash_cases hhash
      simp_all
    · cases hlink
  next => cases hlink

/-- Every element of a table was put there by the last call that linked it, under a key that it
answers to and that has the hash of the element. -/
def Recalls (trace : List (Call V K × Reply V)) (l : Ledger V K) : Prop :=
  ∀ t r e hash, l.roster? t = some r → (e, hash) ∈ r.entries →
    ∃ key a, lastLink? trace e = some (t, key) ∧ hash = r.strategy.hash key ∧
      l.account? e = some a ∧ r.strategy.equal a.value key = true

/-- A call keeps what the trace says of the entries. -/
theorem Recalls.call (hrecalls : l.Recalls trace) (hcovered : l.Covered)
    (h : l.call c = some (reply, l')) : l'.Recalls (trace ++ [(c, reply)]) := by
  intro t r' e hash hr' he
  have heffect := effect_of_call hcovered h
  rw [lastLink?_concat]
  -- an element that was in the table is not linked again, and its value stays
  have hstays : ∀ r, l.roster? t = some r → (e, hash) ∈ r.entries →
      ∃ key a, (link? e (c, reply)).or (lastLink? trace e) = some (t, key) ∧
        hash = r.strategy.hash key ∧ l'.account? e = some a ∧
        r.strategy.equal a.value key = true := by
    intro r hr he
    obtain ⟨key, a, hlast, hhash, ha, hequal⟩ := hrecalls t r e hash hr he
    have hlinked := isLinked_iff.mpr ⟨t, r, hr, Roster.mem_elements_iff.mpr ⟨hash, he⟩⟩
    obtain ⟨-, hfree⟩ | ⟨a', ha', hvalue⟩ := heffect.exists_account ha
    · rw [hfree] at hlinked
      cases hlinked
    · refine ⟨key, a', ?_, hhash, ha', hvalue ▸ hequal⟩
      cases hlink : link? e (c, reply) with
      | none => exact hlast
      | some link =>
        rw [isLinked_of_link? h hlink] at hlinked
        cases hlinked
  obtain ⟨r, gone, hr, hthins, -⟩ | ⟨strategy, capacity, -, -, -, rfl⟩ |
    ⟨f, key, r, a, rfl, rfl, hr, rfl, ha, hequal, -⟩ := heffect.roster hr'
  · rw [hthins.strategy]
    exact hstays r hr (hthins.sublist.subset he)
  · cases he
  · rcases List.mem_cons.mp he with heq | he
    · obtain ⟨rfl, rfl⟩ := Prod.mk.inj heq
      obtain ⟨hput, -⟩ | ⟨a', ha', hvalue⟩ := heffect.exists_account ha
      · cases hput
      · exact ⟨key, a', by simp [link?], rfl, ha', hvalue ▸ hequal⟩
    · exact hstays r hr he

theorem recalls_of_callAll (h : empty.callAll calls = some (replies, l)) :
    l.Recalls (calls.zip replies) := by
  refine callAll_induction (motive := Recalls) ?_ ?_ h
  · intro t r e hash hr
    simp [roster?, empty] at hr
  · intro trace l c reply l' hrecalls hcovered hcall
    exact hrecalls.call hcovered hcall

end Ledger

end HashIndex
