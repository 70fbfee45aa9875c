import HashIndex.Proofs.Agreement.Traversal

/-!
# Calls

Whatever is done with an index is a sequence of calls: references are made, taken and put, tables
are made and forgotten, elements are linked, found and taken out, buckets are visited. What a caller
does between two buckets of a traversal, or when he is told that a value is about to be dropped, is
nothing but further calls. A ledger says which calls are permitted, since nobody can put a reference
that he does not have, and what they are to answer.

## Main definitions

* `Call`, `Reply`: what is asked of an index, and what it answers.
* `Store.call`, `Store.callAll`: calls that are made on a store.
* `Ledger.call`, `Ledger.callAll`: calls as they are meant.

## Main statements

* `Store.Agrees.call`, `Store.Agrees.callAll`: a store answers as its ledger does.
-/

namespace HashIndex

variable {V K : Type}

/-- What is asked of an index. -/
inductive Call (V K : Type) where
  | create (value : V)
  | hold (e : ElementId)
  | put (e : ElementId)
  | createTable (strategy : Strategy V K) (capacity : Capacity)
  | freeTable (t : TableId)
  | hash (t : TableId) (e : ElementId) (key : K)
  | unhash (t : TableId) (e : ElementId)
  | lookup (t : TableId) (key : K)
  | count (t : TableId)
  | lengths (t : TableId)
  | walk (t : TableId) (bucket number : Nat) (choose : Nat → V → Choice)
  | survey (t : TableId) (choose : Nat → V → Bool)
  | drain (t : TableId) (bucket : Nat)

/-- What an index answers: names, what became of a request, and what there was to see. The value
of an element that is destroyed comes with its release. -/
inductive Reply (V : Type) where
  | done
  | created (e : ElementId)
  | made (t : TableId)
  | destroyed (value : Option (V × Release))
  | result (result : Except Refusal Unit)
  | found (result : Except Refusal ElementId)
  | number (n : Nat)
  | lengths (lengths : List Nat)
  | walked (visits : List (Visit V)) (released : List ElementId)
  | surveyed (visits : List (List (Visit V)))
  | released (elements : List ElementId)

namespace Store

/-- Nobody has to read the journal after a call. -/
def settle (s : Store V K) : Store V K := { s with journal := [] }

def call (s : Store V K) : Call V K → Except Fault (Reply V × Store V K)
  | .create value => .ok (.created (s.create value).1, (s.create value).2.settle)
  | .hold e => do
    let s ← s.hold e
    return (.done, s.settle)
  | .put e => do
    let (destroyed, s) ← s.put e
    return (.destroyed (destroyed.map fun x => (x.value, x.release)), s.settle)
  | .createTable strategy capacity =>
    .ok (.made (s.createTable strategy capacity).1, (s.createTable strategy capacity).2.settle)
  | .freeTable t => .ok (.done, (s.freeTable t).settle)
  | .hash t e key => do
    let (result, s) ← s.hash t e key
    return (.result result, s.settle)
  | .unhash t e => do
    let (result, s) ← s.unhash t e
    return (.result result, s.settle)
  | .lookup t key => do
    let (result, s) ← s.lookup t key
    return (.found result, s.settle)
  | .count t => do
    let table ← s.table t
    return (.number table.entries, s.settle)
  | .lengths t => do
    let buckets ← s.bucketRange t
    let (lengths, s) ← chainLengths t buckets [] s
    return (.lengths lengths, s.settle)
  | .walk t bucket number choose => do
    let walk ← s.walkBucket t bucket number choose
    return (.walked walk.visits walk.released, walk.store.settle)
  | .survey t choose => do
    let buckets ← s.bucketRange t
    let (visits, s) ← readBuckets t choose buckets [] 0 s
    return (.surveyed visits, s.settle)
  | .drain t bucket => do
    let (released, s) ← s.drainBucket t bucket
    return (.released released, s.settle)

def callAll (s : Store V K) : List (Call V K) → Except Fault (List (Reply V) × Store V K)
  | [] => .ok ([], s)
  | c :: calls => do
    let (reply, s) ← s.call c
    let (replies, s) ← s.callAll calls
    return (reply :: replies, s)

end Store

namespace Ledger

def call (l : Ledger V K) : Call V K → Option (Reply V × Ledger V K)
  | .create value => some (.created (l.create value).1, (l.create value).2)
  | .hold e => do
    let l ← l.hold e
    return (.done, l)
  | .put e => do
    let (destroyed, l) ← l.put e
    return (.destroyed (destroyed.map fun a => (a.value, a.release)), l)
  | .createTable strategy capacity =>
    some (.made (l.createTable strategy capacity).1, (l.createTable strategy capacity).2)
  | .freeTable t => do
    let l ← l.freeTable t
    return (.done, l)
  | .hash t e key => do
    let (result, l) ← l.hash t e key
    return (.result result, l)
  | .unhash t e => do
    let (result, l) ← l.unhash t e
    return (.result result, l)
  | .lookup t key => do
    let (result, l) ← l.lookup t key
    return (.found result, l)
  | .count t => do
    let r ← l.roster? t
    return (.number r.entries.length, l)
  | .lengths t => do
    let lengths ← l.lengths t
    return (.lengths lengths, l)
  | .walk t bucket number choose => do
    let (visits, l) ← l.walk t bucket number choose
    return (.walked visits (takenOut visits), l)
  | .survey t choose => do
    let (visits, l) ← l.survey t choose
    return (.surveyed visits, l)
  | .drain t bucket => do
    let (released, l) ← l.drain t bucket
    return (.released released, l)

def callAll (l : Ledger V K) : List (Call V K) → Option (List (Reply V) × Ledger V K)
  | [] => some ([], l)
  | c :: calls => do
    let (reply, l) ← l.call c
    let (replies, l) ← l.callAll calls
    return (reply :: replies, l)

theorem callAll_append {l₁ l₂ l₃ : Ledger V K} {calls calls' : List (Call V K)}
    {replies replies' : List (Reply V)} (h : l₁.callAll calls = some (replies, l₂))
    (h' : l₂.callAll calls' = some (replies', l₃)) :
    l₁.callAll (calls ++ calls') = some (replies ++ replies', l₃) := by
  induction calls generalizing l₁ replies with
  | nil =>
    obtain ⟨rfl, rfl⟩ := by simpa [callAll] using h
    exact h'
  | cons c calls ih =>
    simp only [callAll, Option.bind_eq_bind, Option.bind_eq_some_iff, Option.pure_def,
      Option.some.injEq, Prod.mk.injEq, Prod.exists] at h
    obtain ⟨reply, l, hcall, replies, l₂, hrest, rfl, rfl⟩ := h
    simp only [List.cons_append, callAll, hcall, ih hrest, Option.bind_eq_bind, Option.bind_some,
      Option.pure_def]

end Ledger

namespace Store

variable {s s' : Store V K} {l l' : Ledger V K}

theorem callAll_append {s₁ s₂ s₃ : Store V K} {calls calls' : List (Call V K)}
    {replies replies' : List (Reply V)} (h : s₁.callAll calls = .ok (replies, s₂))
    (h' : s₂.callAll calls' = .ok (replies', s₃)) :
    s₁.callAll (calls ++ calls') = .ok (replies ++ replies', s₃) := by
  induction calls generalizing s₁ replies with
  | nil =>
    obtain ⟨rfl, rfl⟩ := by simpa [callAll] using h
    exact h'
  | cons c calls ih =>
    simp only [callAll, Fault.bind_eq_ok_iff, Fault.pure_eq_ok_iff, Prod.mk.injEq,
      Prod.exists] at h
    obtain ⟨reply, s, hcall, replies, s₂, hrest, rfl, rfl⟩ := h
    simp only [List.cons_append, callAll, hcall, ih hrest, Fault.ok_bind, Fault.pure_eq_ok]

theorem journal_of_call {c : Call V K} {reply : Reply V} (h : s.call c = .ok (reply, s')) :
    s'.journal = [] := by
  cases c <;> simp only [call, Fault.bind_eq_ok_iff, Fault.pure_eq_ok_iff, Except.ok.injEq,
    Prod.mk.injEq, Prod.exists] at h <;> grind [settle]

theorem Agrees.settle (hs : s.Agrees l) : s.settle.Agrees l := hs.congr rfl rfl

theorem agrees_empty : (Store.empty : Store V K).Agrees Ledger.empty := by
  constructor <;> intros <;> simp_all [Store.empty, Ledger.empty, Heap.empty, Heap.size, Heap.get?,
    Store.table?, Ledger.account?, Ledger.roster?]

/-- What a ledger permits, a store does without a fault, and it answers what it is meant to. -/
theorem Agrees.call (hs : s.Agrees l) (hidle : s.locks = []) {c : Call V K} {reply : Reply V}
    (hcall : l.call c = some (reply, l')) :
    ∃ s', s.call c = .ok (reply, s') ∧ s'.Agrees l' ∧ s'.locks = [] := by
  cases c <;> simp only [Ledger.call, Option.bind_eq_bind, Option.bind_eq_some_iff, Option.pure_def,
    Option.some.injEq, Prod.mk.injEq, Prod.exists] at hcall
  case create value =>
    obtain ⟨rfl, rfl⟩ := hcall
    obtain ⟨hname, hs'⟩ := hs.create value
    exact ⟨_, by rw [Store.call, hname], hs'.settle, hidle⟩
  case hold e =>
    obtain ⟨l₁, hhold, rfl, rfl⟩ := hcall
    obtain ⟨s', hok, hs', hlocks⟩ := hs.hold hhold
    exact ⟨s'.settle, by simp only [Store.call, hok, Fault.ok_bind, Fault.pure_eq_ok], hs'.settle,
      hlocks.trans hidle⟩
  case put e =>
    obtain ⟨destroyed, l₁, hput, rfl, rfl⟩ := hcall
    obtain ⟨gone, s', hok, hrel, hs', hidle'⟩ := hs.put hidle hput
    refine ⟨s'.settle, ?_, hs'.settle, hidle'⟩
    have hsame : gone.map (fun x => (x.value, x.release)) =
        destroyed.map fun a => (a.value, a.release) := by
      cases hrel with
      | none => rfl
      | some hxa => simp [hxa.value, hxa.release]
    simp only [Store.call, hok, Fault.ok_bind, Fault.pure_eq_ok, hsame]
  case createTable strategy capacity =>
    obtain ⟨rfl, rfl⟩ := hcall
    obtain ⟨hname, hs', hlocks⟩ := hs.createTable strategy capacity
    exact ⟨_, by rw [Store.call, hname], hs'.settle, hlocks.trans hidle⟩
  case freeTable t =>
    obtain ⟨l₁, hfree, rfl, rfl⟩ := hcall
    exact ⟨_, rfl, (hs.freeTable hfree).settle, hidle⟩
  case hash t e key =>
    obtain ⟨result, l₁, hhash, rfl, rfl⟩ := hcall
    obtain ⟨s', hok, hs', hidle'⟩ := hs.hash hidle hhash
    exact ⟨s'.settle, by simp only [Store.call, hok, Fault.ok_bind, Fault.pure_eq_ok], hs'.settle,
      hidle'⟩
  case unhash t e =>
    obtain ⟨result, l₁, hunhash, rfl, rfl⟩ := hcall
    obtain ⟨s', hok, hs', hidle'⟩ := hs.unhash hidle hunhash
    exact ⟨s'.settle, by simp only [Store.call, hok, Fault.ok_bind, Fault.pure_eq_ok], hs'.settle,
      hidle'⟩
  case lookup t key =>
    obtain ⟨result, l₁, hlookup, rfl, rfl⟩ := hcall
    obtain ⟨s', hok, hs', hidle'⟩ := hs.lookup hidle hlookup
    exact ⟨s'.settle, by simp only [Store.call, hok, Fault.ok_bind, Fault.pure_eq_ok], hs'.settle,
      hidle'⟩
  case count t =>
    obtain ⟨r, hr, rfl, rfl⟩ := hcall
    obtain ⟨table, ht, htable⟩ := hs.exists_table hr
    exact ⟨s.settle, by simp only [Store.call, table_eq ht, Fault.ok_bind, htable.entries,
      Fault.pure_eq_ok], hs.settle, hidle⟩
  case lengths t =>
    obtain ⟨lengths, hlengths, rfl, rfl⟩ := hcall
    simp only [Ledger.lengths, Option.bind_eq_bind, Option.bind_eq_some_iff, Option.pure_def,
      Option.some.injEq] at hlengths
    obtain ⟨r, hr, rfl⟩ := hlengths
    obtain ⟨s', hok, hs', hidle'⟩ := hs.chainLengths hidle hr (List.range r.capacity.size)
      (by simp) []
    exact ⟨s'.settle, by simp only [Store.call, hs.bucketRange hr, hok, Fault.ok_bind,
      Fault.pure_eq_ok, List.reverse_nil, List.nil_append], hs'.settle, hidle'⟩
  case walk t bucket number choose =>
    obtain ⟨visits, l₁, hwalk, rfl, rfl⟩ := hcall
    obtain ⟨s', hok, hs', hidle'⟩ := hs.walkBucket hidle hwalk
    exact ⟨s'.settle, by simp only [Store.call, hok, Fault.ok_bind, Fault.pure_eq_ok], hs'.settle,
      hidle'⟩
  case survey t choose =>
    obtain ⟨visits, l₁, hsurvey, rfl, rfl⟩ := hcall
    simp only [Ledger.survey, Option.bind_eq_bind, Option.bind_eq_some_iff] at hsurvey
    obtain ⟨r, hr, hsurvey⟩ := hsurvey
    obtain ⟨s', hok, hs', hidle'⟩ := hs.readBuckets hidle hsurvey []
    exact ⟨s'.settle, by simp only [Store.call, hs.bucketRange hr, hok, Fault.ok_bind,
      Fault.pure_eq_ok, List.reverse_nil, List.nil_append], hs'.settle, hidle'⟩
  case drain t bucket =>
    obtain ⟨released, l₁, hdrain, rfl, rfl⟩ := hcall
    obtain ⟨s', hok, hs', hidle'⟩ := hs.drainBucket hidle hdrain
    exact ⟨s'.settle, by simp only [Store.call, hok, Fault.ok_bind, Fault.pure_eq_ok], hs'.settle,
      hidle'⟩

/-- Calls that the ledger permits are answered by the store as they are by the ledger. -/
theorem Agrees.callAll (hs : s.Agrees l) (hidle : s.locks = []) {calls : List (Call V K)}
    {replies : List (Reply V)} (hcalls : l.callAll calls = some (replies, l')) :
    ∃ s', s.callAll calls = .ok (replies, s') ∧ s'.Agrees l' ∧ s'.locks = [] := by
  induction calls generalizing s l replies with
  | nil =>
    obtain ⟨rfl, rfl⟩ := by simpa [Ledger.callAll] using hcalls
    exact ⟨s, rfl, hs, hidle⟩
  | cons c calls ih =>
    simp only [Ledger.callAll, Option.bind_eq_bind, Option.bind_eq_some_iff, Option.pure_def,
      Option.some.injEq, Prod.mk.injEq, Prod.exists] at hcalls
    obtain ⟨reply, l₁, hcall, replies, l₂, hrest, rfl, rfl⟩ := hcalls
    obtain ⟨s₁, hok, hs₁, hidle₁⟩ := hs.call hidle hcall
    obtain ⟨s', hok', hs', hidle'⟩ := ih hs₁ hidle₁ hrest
    exact ⟨s', by simp only [Store.callAll, hok, hok', Fault.ok_bind, Fault.pure_eq_ok], hs',
      hidle'⟩

end Store

end HashIndex
