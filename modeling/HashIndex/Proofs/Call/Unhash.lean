import HashIndex.Proofs.Call.Detach
import HashIndex.Proofs.Call.FiniteMap
import HashIndex.Proofs.Call.Retry

/-!
# Taking an element out of a table

Whoever asks a table to take an element out has a reference to the element. The owner word says
whether the element is in the table, and its cached hash leads to the chain that it is in, whatever
the strategy would make of the stored key by now. The reference of the table, which is put in the
end, is never the last one then, so that no value ever goes to its release on this way.

## Main definitions

* `Store.unhashPut`: an element is taken out, and the reference of the table is put.
* `Store.TakesOut`: what taking an element out does.

## Main statements

* `Ledger.put_detach`: what is left is the table without the element.
* `Store.Agrees.takesOut`: an element is taken out if and only if it is in the table.
* `Store.Runs.exists_of_call`: only putting references destroys elements.
-/

namespace HashIndex

variable {V K : Type}

namespace Ledger

variable {l : Ledger V K} {t : TableId} {e : ElementId} {a : Account V}

theorem updateAccount_updateAccount (l : Ledger V K) (e : ElementId)
    (f g : Account V → Account V) :
    (l.updateAccount e f).updateAccount e g = l.updateAccount e (g ∘ f) := by
  unfold updateAccount
  congr 1
  refine List.ext_getElem? fun i => ?_
  simp only [List.getElem?_modify]
  by_cases hi : e = i <;> simp [hi]

/-- When the reference that a table had to an element is put as well, all that has changed is that
the element is not in the table any more. -/
theorem put_detach (t : TableId) (ha : l.held? e = some a) :
    (l.detach t e).put e = some (none, l.updateRoster t fun r => r.remove e) := by
  obtain ⟨ha, hpos⟩ := held?_eq_some_iff.mp ha
  have ha' : (l.detach t e).held? e = some { a with references := a.references + 1 } := by
    refine held?_eq_some_iff.mpr ⟨?_, Nat.succ_pos _⟩
    rw [account?_detach, if_pos rfl, ha, Option.map_some]
  have hmore : ¬(a.references + 1 = 1 ∧ (l.detach t e).isLinked e = false) := by omega
  have hback : ((l.detach t e).updateAccount e fun a =>
      { a with references := a.references - 1 }) = l.updateRoster t fun r => r.remove e := by
    rw [detach, lend, updateAccount_updateAccount]
    exact updateAccount_id _ _
  simp only [put, ha', hmore, hback, Option.bind_eq_bind, Option.bind_some, Option.pure_def,
    if_false]

end Ledger

namespace Store

/-- Take an element out of a table, and put the reference that the table had. If that was the last
one, the element that is destroyed comes with the answer. -/
def unhashPut (s : Store V K) (t : TableId) (e : ElementId) :
    Except Fault (Except Refusal Unit × Option (Element V) × Store V K) := do
  match ← s.unhash t e with
  | (.error refusal, s) => return (.error refusal, none, s)
  | (.ok (), s) =>
    let (destroyed, s) ← s.put e
    return (.ok (), destroyed, s)

/-- Taking an element out of a table is successful just for the elements of the table. The bucket
that the cached hash selects loses the element, and nothing else changes. -/
structure TakesOut (s : Store V K) (t : TableId) (e : ElementId) : Prop where
  ok_iff : (∃ s₁, s.unhash t e = .ok (.ok (), s₁)) ↔ s.InTable t e
  notHashed_iff : s.unhash t e = .ok (.error .notHashed, s) ↔ ¬s.InTable t e
  /-- When the bucket is locked, neither the owner nor the bucket of the element has changed, so the
  first round decides. -/
  unchanged : s.unhash t e ≠ .error .ownerChanged ∧ s.unhash t e ≠ .error .bucketChanged
  round : ∀ result s₁, s.unhash t e = .ok (result, s₁) →
    s.unhashRound t e = .ok (some result, s₁) ∧
      ∀ rounds, unhashLoop (rounds + 1) s t e = .ok (result, s₁)
  inBucket : ∀ table x, s.table? t = some table → s.heap.get? e = some x → s.InTable t e →
    s.InBucket t (table.slot x.hash) e
  detaches : ∀ table x s₁, s.table? t = some table → s.heap.get? e = some x →
    s.unhash t e = .ok (.ok (), s₁) → s.Detaches t (table.slot x.hash) [] [e] s₁
  /-- The reference of the table is not the last one. -/
  put : ∀ s₁, s.unhash t e = .ok (.ok (), s₁) → ∃ y, s₁.heap.get? e = some y ∧ 1 < y.count ∧
    s₁.put e =
      .ok (none, { s₁ with heap := s₁.heap.write e { y with count := y.count - 1 } })

variable {s s' : Store V K} {l l' : Ledger V K} {t : TableId} {e : ElementId} {r : Roster V K}
  {a : Account V} {c : Call V K} {reply : Reply V} {trace : List (Call V K × Reply V)}

theorem put_of_one_lt_count {x : Element V} (hx : s.heap.get? e = some x) (hcount : 1 < x.count) :
    s.put e =
      .ok (none, { s with heap := s.heap.write e { x with count := x.count - 1 } }) := by
  obtain ⟨n, hn⟩ := Nat.exists_eq_add_of_lt hcount
  have hsucc : x.count = n + 2 := by omega
  simp only [Store.put, Heap.read_eq hx, Fault.ok_bind, hsucc, Fault.pure_eq_ok]
  rfl

theorem Agrees.exists_unhash (hs : s.Agrees l) (hidle : s.locks = []) (hr : l.roster? t = some r)
    (ha : l.held? e = some a) :
    (e ∈ r.elements ∧ ∃ s₁, s.unhash t e = .ok (.ok (), s₁) ∧ s₁.Agrees (l.detach t e) ∧
        s₁.locks = []) ∨
      e ∉ r.elements ∧ s.unhash t e = .ok (.error .notHashed, s) := by
  by_cases he : e ∈ r.elements
  · have hunhash : l.unhash t e = some (.ok (), l.detach t e) := by
      simp only [Ledger.unhash, hr, ha, he, Option.bind_eq_bind, Option.bind_some, Option.pure_def,
        if_true]
    exact .inl ⟨he, hs.unhash hidle hunhash⟩
  · obtain ⟨x, hx, -⟩ := hs.exists_element (Ledger.held?_eq_some_iff.mp ha).1
    exact .inr ⟨he, unhash_of_owner_ne hx (mt (hs.owner_eq_iff hx hr).mp he)⟩

theorem Agrees.agrees_of_unhash (hs : s.Agrees l) (hidle : s.locks = [])
    (hr : l.roster? t = some r) (ha : l.held? e = some a)
    (hunhash : s.unhash t e = .ok (.ok (), s')) : e ∈ r.elements ∧ s'.Agrees (l.detach t e) := by
  obtain ⟨he, s₁, hok, hs₁, -⟩ | ⟨-, hrefused⟩ := hs.exists_unhash hidle hr ha
  · obtain ⟨-, rfl⟩ := Prod.mk.inj (Except.ok.inj (hunhash.symm.trans hok))
    exact ⟨he, hs₁⟩
  · cases hunhash.symm.trans hrefused

/-- An element of a table is in the bucket that its cached hash selects. -/
theorem Agrees.mem_bucket_slot (hs : s.Agrees l) (hr : l.roster? t = some r) {table : Table V K}
    {x : Element V} (ht : s.table? t = some table) (hx : s.heap.get? e = some x)
    (he : e ∈ r.elements) : e ∈ (r.bucket (table.slot x.hash)).map Prod.fst := by
  obtain ⟨table', ht', htable⟩ := hs.exists_table hr
  obtain rfl := Option.some.inj (ht.symm.trans ht')
  obtain ⟨hash, he⟩ := Roster.mem_elements_iff.mp he
  obtain ⟨y, hy, -, rfl⟩ := hs.listed t r hr e hash he
  obtain rfl := Option.some.inj (hx.symm.trans hy)
  rw [htable.slot_eq]
  exact List.mem_map_of_mem (Roster.mem_bucket_iff.mpr ⟨he, rfl⟩)

/-- The reference of a table is not the last one to an element that is taken out. -/
theorem Agrees.one_lt_count_of_detach (ha : l.held? e = some a) (hs : s.Agrees (l.detach t e)) :
    ∃ x, s.heap.get? e = some x ∧ 1 < x.count := by
  obtain ⟨haccount, hpos⟩ := Ledger.held?_eq_some_iff.mp ha
  obtain ⟨x, hx, hxa⟩ := hs.exists_element
    ((l.account?_detach t e e).trans (by rw [if_pos rfl, haccount, Option.map_some]))
  have hcount := hxa.count
  dsimp only at hcount
  exact ⟨x, hx, by omega⟩

/-- Taking an element out changes its bucket and its own words, and nothing else. -/
theorem Agrees.takesOut (hs : s.Agrees l) (hidle : s.locks = []) (hr : l.roster? t = some r)
    (ha : l.held? e = some a) : s.TakesOut t e := by
  have hcases := hs.exists_unhash hidle hr ha
  constructor
  · rw [hs.inTable_iff hr]
    exact ⟨fun ⟨s₁, hunhash⟩ => (hs.agrees_of_unhash hidle hr ha hunhash).1, fun he =>
      (hcases.resolve_right fun h => h.1 he).2.imp fun _ h => h.1⟩
  · rw [hs.inTable_iff hr]
    refine ⟨fun hunhash he => ?_, fun he => (hcases.resolve_left fun h => he h.1).2⟩
    obtain ⟨s₁, hok, -⟩ := (hcases.resolve_right fun h => h.1 he).2
    cases hunhash.symm.trans hok
  · obtain ⟨-, s₁, hok, -⟩ | ⟨-, hok⟩ := hcases <;> simp [hok]
  · intro result s₁ hunhash
    refine ⟨?_, fun rounds => (unhashLoop_eq rounds s t e).trans hunhash⟩
    rw [unhashRound_eq, hunhash, Fault.ok_bind]
    rfl
  · intro table x ht hx he
    exact hs.inBucket_iff.mpr ⟨r, hr, hs.mem_bucket_slot hr ht hx ((hs.inTable_iff hr).mp he)⟩
  · intro table x s₁ ht hx hunhash
    obtain ⟨he, hs₁⟩ := hs.agrees_of_unhash hidle hr ha hunhash
    have hmem := hs.mem_bucket_slot hr ht hx he
    obtain ⟨table', ht', htable⟩ := hs.exists_table hr
    obtain rfl := Option.some.inj (ht.symm.trans ht')
    refine hs.detaches hs₁ hr (htable.slot_eq x.hash ▸ r.slot_lt x.hash) ?_
      (Ledger.yields_detach t (Ledger.held?_eq_some_iff.mp ha).1) (.refl _) fun u => ?_
    · exact List.singleton_sublist.mpr hmem
    · rw [Ledger.roster?_detach, hr, Option.map_some, Roster.remove_eq_without]
  · intro s₁ hunhash
    obtain ⟨x, hx, hcount⟩ :=
      Agrees.one_lt_count_of_detach ha (hs.agrees_of_unhash hidle hr ha hunhash).2
    exact ⟨x, hx, hcount, put_of_one_lt_count hx hcount⟩

/-- Taking out an element of a table and putting the reference of the table. -/
theorem Agrees.unhashPut (hs : s.Agrees l) (hidle : s.locks = []) (hr : l.roster? t = some r)
    (ha : l.held? e = some a) (he : e ∈ r.elements) :
    ∃ s', s.unhashPut t e = .ok (.ok (), none, s') ∧
      s'.Agrees (l.updateRoster t fun r => r.remove e) ∧ s'.locks = [] := by
  obtain ⟨s₁, hok, hs₁, hidle₁⟩ :=
    ((hs.exists_unhash hidle hr ha).resolve_right fun h => h.1 he).2
  obtain ⟨gone, s', hput, hgone, hs', hidle'⟩ := hs₁.put hidle₁ (Ledger.put_detach t ha)
  cases hgone
  refine ⟨s', ?_, hs', hidle'⟩
  simp only [Store.unhashPut, hok, hput, Fault.ok_bind, Fault.pure_eq_ok]

/-- A call that puts no reference destroys nothing, and hands no value to a release. -/
theorem Runs.exists_of_call (h : Runs trace s) (hpermits : s.Permits c)
    (hcall : s.call c = .ok (reply, s')) (hput : ∀ e, c ≠ .put e) :
    (∀ gone, reply ≠ .destroyed gone) ∧ ∀ e x, s.heap.get? e = some x →
      ∃ y, s'.heap.get? e = some y ∧ y.value = x.value := by
  obtain ⟨l, -, hs, hidle⟩ := h.exists_ledger
  obtain ⟨l', hcall', hs', -⟩ := hs.exists_ledger_call hidle hpermits hcall
  have heffect := Ledger.effect_of_call hs.covered hcall'
  refine ⟨?_, fun e x hx => ?_⟩
  · rintro gone rfl
    cases c with
    | put e => exact hput e rfl
    | _ => simp [Ledger.call, Option.bind_eq_some_iff] at hcall'
  · obtain ⟨b, hb, hxb⟩ := hs.exists_account hx
    obtain ⟨rfl, -⟩ | ⟨b', hb', hvalue⟩ := heffect.exists_account hb
    · exact absurd rfl (hput e)
    · obtain ⟨y, hy, hyb⟩ := hs'.exists_element hb'
      exact ⟨y, hy, hyb.value.trans (hvalue.trans hxb.value.symm)⟩

end Store

end HashIndex
