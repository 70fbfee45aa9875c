import HashIndex.Proofs.Call.Permitted

/-!
# Runs

A run is a sequence of calls on an empty store, each of them made by a caller who had what he needed
for it, with what was answered. What a hook does is part of the run that it interrupts, so that a
store as a hook sees it is a store after a run as well.

## Main definitions

* `Store.references`: the references to an element outside the tables.
* `Store.Permits`: what a caller needs for a call.
* `Store.Runs`: the stores that runs lead to.

## Main statements

* `Store.Runs.exists_ledger`: a ledger permits a run, and answers it in the same way.
* `Store.runs_of_callAll`: what a ledger permits is a run.
* `Store.Runs.exists_call`: a run goes on with every call that is permitted.
-/

namespace HashIndex.Store

variable {V K : Type}

/-- The references to an element outside the tables; none if the element is gone. -/
def references (s : Store V K) (e : ElementId) : Nat :=
  ((s.heap.get? e).map fun x => x.count - if x.isHashed then 1 else 0).getD 0

/-- The caller has what he needs for a call: a reference to the element, the table, a bucket of it.
A table can be forgotten when it counts no elements. -/
def Permits (s : Store V K) : Call V K → Prop
  | .create _ | .createTable _ _ => True
  | .hold e | .put e => 0 < s.references e
  | .freeTable t => ∃ table, s.table? t = some table ∧ table.entries = 0
  | .hash t e _ | .unhash t e => (∃ table, s.table? t = some table) ∧ 0 < s.references e
  | .lookup t _ | .count t | .lengths t | .survey t _ => ∃ table, s.table? t = some table
  | .walk t i _ _ | .drain t i => ∃ table, s.table? t = some table ∧ i < table.buckets.size

/-- A store comes about by calls that were permitted, and that were answered as the trace says. -/
inductive Runs : List (Call V K × Reply V) → Store V K → Prop
  | empty : Runs [] .empty
  | call {trace : List (Call V K × Reply V)} {s s' : Store V K} {c : Call V K} {reply : Reply V}
    (h : Runs trace s) (hpermits : s.Permits c) (hcall : s.call c = .ok (reply, s')) :
    Runs (trace ++ [(c, reply)]) s'

variable {s s' : Store V K} {l l' : Ledger V K} {c : Call V K} {reply : Reply V} {e : ElementId}
  {t : TableId} {trace : List (Call V K × Reply V)}

theorem Agrees.references_eq (hs : s.Agrees l) (e : ElementId) :
    s.references e = l.references e := by
  have hrel := hs.element e
  unfold Store.references Ledger.references
  generalize s.heap.get? e = x? at hrel ⊢
  generalize l.account? e = a? at hrel ⊢
  cases hrel with
  | none => rfl
  | some hxa =>
    have hcount := hxa.count
    simp only [Option.map_some, Option.getD_some]
    omega

theorem Agrees.references_pos_iff (hs : s.Agrees l) :
    0 < s.references e ↔ ∃ a, l.held? e = some a := by
  rw [hs.references_eq, Ledger.references]
  cases ha : l.account? e <;> simp [Ledger.held?_eq_some_iff, ha]

theorem Agrees.exists_table_and_iff (hs : s.Agrees l) {p : Table V K → Prop}
    {q : Roster V K → Prop} (hpq : ∀ table r, table.Agrees s.heap r → (p table ↔ q r)) :
    (∃ table, s.table? t = some table ∧ p table) ↔ ∃ r, l.roster? t = some r ∧ q r := by
  constructor
  · rintro ⟨table, ht, hp⟩
    obtain ⟨r, hr, htable⟩ := hs.exists_roster ht
    exact ⟨r, hr, (hpq table r htable).mp hp⟩
  · rintro ⟨r, hr, hq⟩
    obtain ⟨table, ht, htable⟩ := hs.exists_table hr
    exact ⟨table, ht, (hpq table r htable).mpr hq⟩

theorem Agrees.exists_table_iff (hs : s.Agrees l) :
    (∃ table, s.table? t = some table) ↔ ∃ r, l.roster? t = some r := by
  simpa using hs.exists_table_and_iff (t := t) (p := fun _ => True) (q := fun _ => True)
    fun _ _ _ => Iff.rfl

/-- A store and its ledger permit the same calls. -/
theorem Agrees.permits_iff (hs : s.Agrees l) : s.Permits c ↔ l.Permits c := by
  cases c with
  | create | createTable => exact Iff.rfl
  | hold e | put e => exact hs.references_pos_iff
  | freeTable t =>
    refine hs.exists_table_and_iff fun table r htable => ?_
    rw [htable.entries, List.length_eq_zero_iff]
  | hash t e key | unhash t e => exact and_congr hs.exists_table_iff hs.references_pos_iff
  | lookup | count | lengths | survey => exact hs.exists_table_iff
  | walk | drain =>
    refine hs.exists_table_and_iff fun table r htable => ?_
    rw [htable.size]

/-- What a store does at a call that is permitted, its ledger does. -/
theorem Agrees.exists_ledger_call (hs : s.Agrees l) (hidle : s.locks = []) (hpermits : s.Permits c)
    (hcall : s.call c = .ok (reply, s')) :
    ∃ l', l.call c = some (reply, l') ∧ s'.Agrees l' ∧ s'.locks = [] := by
  obtain ⟨reply', l', hcall'⟩ := Ledger.exists_call hs.covered (hs.permits_iff.mp hpermits)
  obtain ⟨s'', hok, hs', hidle'⟩ := hs.call hidle hcall'
  obtain ⟨rfl, rfl⟩ := Prod.mk.inj (Except.ok.inj (hcall.symm.trans hok))
  exact ⟨l', hcall', hs', hidle'⟩

/-- A ledger permits a run and answers it in the same way, and the store agrees with it. -/
theorem Runs.exists_ledger (h : Runs trace s) :
    ∃ l, Ledger.empty.callAll (trace.map Prod.fst) = some (trace.map Prod.snd, l) ∧
      s.Agrees l ∧ s.locks = [] := by
  induction h with
  | empty => exact ⟨.empty, rfl, agrees_empty, rfl⟩
  | call _ hpermits hcall ih =>
    obtain ⟨l, hcalls, hs, hidle⟩ := ih
    obtain ⟨l', hcall', hs', hidle'⟩ := hs.exists_ledger_call hidle hpermits hcall
    refine ⟨l', ?_, hs', hidle'⟩
    rw [List.map_append, List.map_append]
    refine Ledger.callAll_append hcalls ?_
    simp only [List.map_singleton, Ledger.callAll, hcall', Option.bind_eq_bind, Option.bind_some,
      Option.pure_def]

/-- A run that is not empty has a last call. -/
theorem Runs.exists_last (h : Runs (trace ++ [(c, reply)]) s') :
    ∃ s, Runs trace s ∧ s.Permits c ∧ s.call c = .ok (reply, s') := by
  generalize htrace : trace ++ [(c, reply)] = trace' at h
  cases h with
  | empty => simp at htrace
  | call h hpermits hcall =>
    obtain ⟨rfl, heq⟩ := List.append_inj' htrace rfl
    obtain ⟨rfl, rfl⟩ := by simpa using heq
    exact ⟨_, h, hpermits, hcall⟩

/-- A run can go on with calls that a ledger permits. -/
theorem Runs.exists_callAll {calls : List (Call V K)} {replies : List (Reply V)}
    (h : Runs trace s) (hs : s.Agrees l) (hidle : s.locks = [])
    (hcalls : l.callAll calls = some (replies, l')) :
    ∃ s', s.callAll calls = .ok (replies, s') ∧ Runs (trace ++ calls.zip replies) s' := by
  induction calls generalizing trace s l replies with
  | nil =>
    obtain ⟨rfl, rfl⟩ := by simpa [Ledger.callAll] using hcalls
    exact ⟨s, rfl, by simpa using h⟩
  | cons c calls ih =>
    simp only [Ledger.callAll, Option.bind_eq_bind, Option.bind_eq_some_iff, Option.pure_def,
      Option.some.injEq, Prod.mk.injEq, Prod.exists] at hcalls
    obtain ⟨reply, l₁, hcall, replies, l₂, hrest, rfl, rfl⟩ := hcalls
    obtain ⟨s₁, hok, hs₁, hidle₁⟩ := hs.call hidle hcall
    have hpermits := hs.permits_iff.mpr (Ledger.permits_of_call hcall)
    obtain ⟨s', hok', hrun⟩ := ih (h.call hpermits hok) hs₁ hidle₁ hrest
    refine ⟨s', by simp only [Store.callAll, hok, hok', Fault.ok_bind, Fault.pure_eq_ok], ?_⟩
    simpa using hrun

theorem runs_of_callAll {calls : List (Call V K)} {replies : List (Reply V)}
    (hcalls : Ledger.empty.callAll calls = some (replies, l)) :
    ∃ s, Store.empty.callAll calls = .ok (replies, s) ∧ Runs (calls.zip replies) s :=
  Runs.exists_callAll .empty agrees_empty rfl hcalls

/-- Calls that a ledger answers are a run with these answers. -/
theorem exists_runs (calls : List (Call V K)) (replies : List (Reply V))
    (hreplies : (Ledger.empty.callAll calls).map Prod.fst = some replies) :
    ∃ s, Runs (calls.zip replies) s := by
  obtain ⟨⟨_, l⟩, hcalls, rfl⟩ := Option.map_eq_some_iff.mp hreplies
  obtain ⟨s, -, h⟩ := runs_of_callAll hcalls
  exact ⟨s, h⟩

/-- What can be computed from the ledger of a run is so for a ledger that the store agrees with. -/
theorem Runs.exists_agrees_with {α : Type} (h : Runs trace s) (f : Ledger V K → α) (value : α)
    (hvalue : (Ledger.empty.callAll (trace.map Prod.fst)).map (fun (_, l) => f l) = some value) :
    ∃ l, s.Agrees l ∧ s.locks = [] ∧ f l = value := by
  obtain ⟨l, hcalls, hs, hidle⟩ := h.exists_ledger
  rw [hcalls] at hvalue
  exact ⟨l, hs, hidle, Option.some.inj hvalue⟩

/-- Calls that make a table and an element and link the element. -/
def linkingCalls : List (Call Nat Nat) :=
  [.createTable (.usual id UInt32.ofNat .drop (.plain "")) .least, .create 7, .hash 0 0 7]

theorem exists_runs_linking :
    ∃ s, Runs (linkingCalls.zip [.made 0, .created 0, .result (.ok ())]) s :=
  exists_runs linkingCalls _ rfl

/-- Calls that link three elements with hashes that come to the same bucket if there are 32. -/
def collidingCalls (capacity : Capacity) : List (Call Nat Nat) :=
  [.createTable (.usual id UInt32.ofNat .drop (.plain "")) capacity, .create 7, .create 39,
    .create 71, .hash 0 0 7, .hash 0 1 39, .hash 0 2 71]

def collidingReplies : List (Reply Nat) :=
  [.made 0, .created 0, .created 1, .created 2, .result (.ok ()), .result (.ok ()),
    .result (.ok ())]

theorem Runs.exists_call (h : Runs trace s) (hpermits : s.Permits c) :
    ∃ reply s', s.call c = .ok (reply, s') ∧ Runs (trace ++ [(c, reply)]) s' := by
  obtain ⟨l, -, hs, hidle⟩ := h.exists_ledger
  obtain ⟨reply, l', hcall⟩ := Ledger.exists_call hs.covered (hs.permits_iff.mp hpermits)
  obtain ⟨s', hok, -⟩ := hs.call hidle hcall
  exact ⟨reply, s', hok, h.call hpermits hok⟩

/-- A call hands out and takes back references, and makes or loses none. -/
theorem Agrees.references_of_call (hs : s.Agrees l) (hidle : s.locks = [])
    (hcall : s.call c = .ok (reply, s')) (hpermits : s.Permits c) (e : ElementId) :
    s'.references e + c.returned.count e = s.references e + (c.handed reply).count e := by
  obtain ⟨l', hcall', hs', -⟩ := hs.exists_ledger_call hidle hpermits hcall
  rw [hs.references_eq, hs'.references_eq]
  exact (Ledger.effect_of_call hs.covered hcall').references e

end HashIndex.Store
