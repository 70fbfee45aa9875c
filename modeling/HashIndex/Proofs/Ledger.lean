import HashIndex.Store.Traversal
import Mathlib.Data.List.Nodup

/-!
# Ledgers

A ledger is what an index is meant to be: for each element an account of its value and of the
references to it that are held outside the tables, and for each table a roster, the list of its
elements with the hashes of the keys that they were linked under, latest first. Linking and taking
out, finding and visiting are operations on these lists. There are no chains, no buckets but those
that a list falls into, no words that could disagree, and no faults: what nobody may ask for, since
he has no reference to the element or no table to ask, has no outcome.

## Main definitions

* `Account`, `Roster`, `Ledger`: what is meant by an element, a table, an index.
* `Ledger.hash`, `Ledger.unhash`, `Ledger.lookup`: the operations of a table.
* `Ledger.walk`, `Ledger.survey`, `Ledger.drain`: the traversals, one bucket at a time or all.
-/

namespace HashIndex

/-- An element: its value, the references to it outside the tables, and its release. -/
structure Account (V : Type) where
  value : V
  references : Nat
  release : Release

/-- A table: how it deals with keys, how many buckets it has, and its elements, latest first, each
with the hash of the key it was linked under. -/
structure Roster (V K : Type) where
  strategy : Strategy V K
  capacity : Capacity
  entries : List (ElementId × UInt32)

structure Ledger (V K : Type) where
  accounts : List (Option (Account V))
  rosters : List (Option (Roster V K))

namespace Roster

variable {V K : Type}

def slot (r : Roster V K) (hash : UInt32) : Nat := (hash.toUInt64 &&& r.capacity.mask).toNat

def elements (r : Roster V K) : List ElementId := r.entries.map Prod.fst

def bucket (r : Roster V K) (i : Nat) : List (ElementId × UInt32) :=
  r.entries.filter fun entry => r.slot entry.2 = i

def insert (r : Roster V K) (e : ElementId) (key : K) : Roster V K :=
  { r with entries := (e, r.strategy.hash key) :: r.entries }

def remove (r : Roster V K) (e : ElementId) : Roster V K :=
  { r with entries := r.entries.filter fun entry => entry.1 ≠ e }

end Roster

namespace Ledger

variable {V K : Type}

def empty : Ledger V K := ⟨[], []⟩

def account? (l : Ledger V K) (e : ElementId) : Option (Account V) := l.accounts[e]?.join

def roster? (l : Ledger V K) (t : TableId) : Option (Roster V K) := l.rosters[t]?.join

def updateAccount (l : Ledger V K) (e : ElementId) (f : Account V → Account V) : Ledger V K :=
  { l with accounts := l.accounts.modify e (Option.map f) }

def updateRoster (l : Ledger V K) (t : TableId) (f : Roster V K → Roster V K) : Ledger V K :=
  { l with rosters := l.rosters.modify t (Option.map f) }

def held? (l : Ledger V K) (e : ElementId) : Option (Account V) :=
  (l.account? e).filter fun a => 0 < a.references

def isLinked (l : Ledger V K) (e : ElementId) : Bool :=
  l.rosters.any fun r => r.any fun r => r.elements.contains e

/-- Of the elements with the hash of a key that answer to the key, the one that was linked last. -/
def find? (l : Ledger V K) (r : Roster V K) (key : K) : Option ElementId :=
  (r.entries.find? fun entry => entry.2 == r.strategy.hash key &&
    (l.account? entry.1).any fun a => r.strategy.equal a.value key).map Prod.fst

/-! ## References -/

def create (l : Ledger V K) (value : V) : ElementId × Ledger V K :=
  (l.accounts.length, { l with accounts := l.accounts ++ [some ⟨value, 1, .drop⟩] })

def lend (l : Ledger V K) (e : ElementId) : Ledger V K :=
  l.updateAccount e fun a => { a with references := a.references + 1 }

def lendIf (l : Ledger V K) (wanted : Bool) (e : ElementId) : Ledger V K :=
  if wanted then l.lend e else l

def hold (l : Ledger V K) (e : ElementId) : Option (Ledger V K) := do
  let _ ← l.held? e
  return l.lend e

/-- One reference less. If it was the last one and the element is in no table, the account is
closed. -/
def put (l : Ledger V K) (e : ElementId) : Option (Option (Account V) × Ledger V K) := do
  let a ← l.held? e
  if a.references = 1 ∧ l.isLinked e = false then
    return (some a, { l with accounts := l.accounts.set e none })
  return (none, l.updateAccount e fun a => { a with references := a.references - 1 })

/-! ## Tables -/

def createTable (l : Ledger V K) (strategy : Strategy V K) (capacity : Capacity) :
    TableId × Ledger V K :=
  let roster := some ⟨strategy, capacity, []⟩
  match l.rosters.findIdx? Option.isNone with
  | some t => (t, { l with rosters := l.rosters.set t roster })
  | none => (l.rosters.length, { l with rosters := l.rosters ++ [roster] })

def freeTable (l : Ledger V K) (t : TableId) : Option (Ledger V K) := do
  let r ← l.roster? t
  if r.entries ≠ [] then none
  return { l with rosters := l.rosters.set t none }

def hash (l : Ledger V K) (t : TableId) (e : ElementId) (key : K) :
    Option (Except Refusal Unit × Ledger V K) := do
  let r ← l.roster? t
  let a ← l.held? e
  if !r.strategy.equal a.value key then return (.error .keyMismatch, l)
  if l.isLinked e then return (.error .alreadyHashed, l)
  if (l.find? r key).isSome then return (.error .duplicateKey, l)
  return (.ok (), (l.updateRoster t fun r => r.insert e key).updateAccount e
    fun a => { a with release := r.strategy.release })

def lookup (l : Ledger V K) (t : TableId) (key : K) :
    Option (Except Refusal ElementId × Ledger V K) := do
  let r ← l.roster? t
  match l.find? r key with
  | none => return (.error .notFound, l)
  | some e => return (.ok e, l.lend e)

/-- Take an element out of a table, whose reference is left to the caller. -/
def detach (l : Ledger V K) (t : TableId) (e : ElementId) : Ledger V K :=
  (l.updateRoster t fun r => r.remove e).lend e

def unhash (l : Ledger V K) (t : TableId) (e : ElementId) :
    Option (Except Refusal Unit × Ledger V K) := do
  let r ← l.roster? t
  let _ ← l.held? e
  if e ∈ r.elements then return (.ok (), l.detach t e)
  return (.error .notHashed, l)

/-! ## Traversals -/

/-- Hold an element or take it out of a table, as it was chosen. -/
def treat (l : Ledger V K) (t : TableId) (e : ElementId) (choice : Choice) : Ledger V K :=
  if choice.unhash then (l.lendIf choice.hold e).detach t e else l.lendIf choice.hold e

def visit (t : TableId) (choose : Nat → V → Choice) :
    List (ElementId × UInt32) → Nat → Ledger V K → Option (List (Visit V) × Ledger V K)
  | [], _, l => some ([], l)
  | (e, hash) :: entries, number, l => do
    let a ← l.account? e
    let choice := choose number a.value
    let (visits, l) ← visit t choose entries (number + 1) (l.treat t e choice)
    return (⟨number, e, a.value, hash, choice⟩ :: visits, l)

/-- The elements that visits took out, in order. -/
def takenOut (visits : List (Visit V)) : List ElementId :=
  (visits.filter fun visit => visit.choice.unhash).map Visit.element

/-- Visit a bucket, with the right to take elements out. -/
def walk (l : Ledger V K) (t : TableId) (bucket number : Nat) (choose : Nat → V → Choice) :
    Option (List (Visit V) × Ledger V K) := do
  let r ← l.roster? t
  if ¬bucket < r.capacity.size then none
  visit t choose (r.bucket bucket) number l

def surveyBuckets (t : TableId) (choose : Nat → V → Bool) :
    List Nat → Nat → Ledger V K → Option (List (List (Visit V)) × Ledger V K)
  | [], _, l => some ([], l)
  | bucket :: buckets, number, l => do
    let (visits, l) ← l.walk t bucket number fun n v => ⟨choose n v, false⟩
    let (rest, l) ← surveyBuckets t choose buckets (number + visits.length) l
    return (visits :: rest, l)

def survey (l : Ledger V K) (t : TableId) (choose : Nat → V → Bool) :
    Option (List (List (Visit V)) × Ledger V K) := do
  let r ← l.roster? t
  surveyBuckets t choose (List.range r.capacity.size) 0 l

def lengths (l : Ledger V K) (t : TableId) : Option (List Nat) := do
  let r ← l.roster? t
  return (List.range r.capacity.size).map fun i => (r.bucket i).length

def drain (l : Ledger V K) (t : TableId) (bucket : Nat) :
    Option (List ElementId × Ledger V K) := do
  let r ← l.roster? t
  if ¬bucket < r.capacity.size then none
  let released := (r.bucket bucket).map Prod.fst
  return (released, released.foldl (fun l e => l.detach t e) l)

/-! ## Reading after changing -/

variable {l : Ledger V K} {e f : ElementId} {t u : TableId} {r : Roster V K} {a : Account V}

@[simp] theorem roster?_updateAccount (l : Ledger V K) (e : ElementId)
    (f : Account V → Account V) (t : TableId) : (l.updateAccount e f).roster? t = l.roster? t := rfl

@[simp] theorem account?_updateRoster (l : Ledger V K) (t : TableId)
    (f : Roster V K → Roster V K) (e : ElementId) :
    (l.updateRoster t f).account? e = l.account? e := rfl

theorem account?_updateAccount (l : Ledger V K) (e : ElementId) (g : Account V → Account V)
    (f : ElementId) :
    (l.updateAccount e g).account? f = if f = e then (l.account? e).map g else l.account? f := by
  unfold account? updateAccount
  rw [List.getElem?_modify]
  by_cases hf : f = e
  · subst hf
    cases l.accounts[f]? <;> simp
  · cases l.accounts[f]? <;> simp [hf, Ne.symm hf]

theorem roster?_updateRoster (l : Ledger V K) (t : TableId) (g : Roster V K → Roster V K)
    (u : TableId) :
    (l.updateRoster t g).roster? u = if u = t then (l.roster? t).map g else l.roster? u := by
  unfold roster? updateRoster
  rw [List.getElem?_modify]
  by_cases hu : u = t
  · subst hu
    cases l.rosters[u]? <;> simp
  · cases l.rosters[u]? <;> simp [hu, Ne.symm hu]

@[simp] theorem updateAccount_id (l : Ledger V K) (e : ElementId) : l.updateAccount e id = l := by
  simp [updateAccount]

@[simp] theorem length_accounts_updateAccount (l : Ledger V K) (e : ElementId)
    (f : Account V → Account V) : (l.updateAccount e f).accounts.length = l.accounts.length := by
  simp [updateAccount]

@[simp] theorem length_rosters_updateRoster (l : Ledger V K) (t : TableId)
    (f : Roster V K → Roster V K) : (l.updateRoster t f).rosters.length = l.rosters.length := by
  simp [updateRoster]

@[simp] theorem roster?_lend (l : Ledger V K) (e : ElementId) (t : TableId) :
    (l.lend e).roster? t = l.roster? t := rfl

theorem account?_lend (l : Ledger V K) (e f : ElementId) :
    (l.lend e).account? f = if f = e then
      (l.account? e).map fun a => { a with references := a.references + 1 } else l.account? f :=
  l.account?_updateAccount e _ f

@[simp] theorem roster?_lendIf (l : Ledger V K) (wanted : Bool) (e : ElementId) (t : TableId) :
    (l.lendIf wanted e).roster? t = l.roster? t := by
  cases wanted <;> rfl

theorem account?_lendIf (l : Ledger V K) (wanted : Bool) (e f : ElementId) :
    (l.lendIf wanted e).account? f = if f = e then
      (l.account? e).map fun a => { a with references := a.references + wanted.toNat }
      else l.account? f := by
  cases wanted
  · by_cases hf : f = e <;> simp [lendIf, hf]
  · exact l.account?_lend e f

theorem roster?_detach (l : Ledger V K) (t : TableId) (e : ElementId) (u : TableId) :
    (l.detach t e).roster? u =
      if u = t then (l.roster? t).map fun r => r.remove e else l.roster? u :=
  l.roster?_updateRoster t _ u

theorem account?_detach (l : Ledger V K) (t : TableId) (e f : ElementId) :
    (l.detach t e).account? f = if f = e then
      (l.account? e).map fun a => { a with references := a.references + 1 } else l.account? f :=
  account?_lend _ e f

@[simp] theorem create_fst (l : Ledger V K) (value : V) :
    (l.create value).1 = l.accounts.length := rfl

theorem account?_create (l : Ledger V K) (value : V) (e : ElementId) :
    (l.create value).2.account? e =
      if e = l.accounts.length then some ⟨value, 1, .drop⟩ else l.account? e := by
  simp only [create, account?, List.getElem?_append]
  rcases Nat.lt_trichotomy e l.accounts.length with hlt | heq | hgt
  · simp [hlt, Nat.ne_of_lt hlt]
  · simp [heq]
  · have hpos : e - l.accounts.length ≠ 0 := Nat.sub_ne_zero_of_lt hgt
    simp [Nat.not_lt_of_gt hgt, Nat.ne_of_gt hgt, hpos]

theorem account?_close (l : Ledger V K) (e f : ElementId) :
    ({ l with accounts := l.accounts.set e none } : Ledger V K).account? f =
      if f = e then none else l.account? f := by
  simp only [account?, List.getElem?_set]
  by_cases hf : f = e
  · subst hf
    by_cases hlt : f < l.accounts.length <;> simp [hlt]
  · simp [hf, Ne.symm hf]

theorem account?_length (l : Ledger V K) : l.account? l.accounts.length = none := by
  simp [account?]

/-- A new table takes a free place, and leaves the other tables as they are. -/
theorem roster?_createTable (l : Ledger V K) (strategy : Strategy V K) (capacity : Capacity) :
    l.roster? (l.createTable strategy capacity).1 = none ∧
      ∀ t, (l.createTable strategy capacity).2.roster? t =
        if t = (l.createTable strategy capacity).1 then some ⟨strategy, capacity, []⟩
        else l.roster? t := by
  unfold createTable
  cases hfree : l.rosters.findIdx? Option.isNone with
  | some u =>
    obtain ⟨hu, hnone, -⟩ := List.findIdx?_eq_some_iff_getElem.mp hfree
    refine ⟨by simpa [roster?, List.getElem?_eq_getElem hu] using hnone, fun t => ?_⟩
    simp only [roster?, List.getElem?_set]
    by_cases ht : t = u
    · subst ht
      simp [hu]
    · simp [ht, Ne.symm ht]
  | none =>
    refine ⟨by simp [roster?], fun t => ?_⟩
    simp only [roster?, List.getElem?_append]
    rcases Nat.lt_trichotomy t l.rosters.length with hlt | heq | hgt
    · simp [hlt, Nat.ne_of_lt hlt]
    · simp [heq]
    · have hpos : t - l.rosters.length ≠ 0 := Nat.sub_ne_zero_of_lt hgt
      simp [Nat.not_lt_of_gt hgt, Nat.ne_of_gt hgt, hpos]

theorem account?_createTable (l : Ledger V K) (strategy : Strategy V K) (capacity : Capacity)
    (e : ElementId) : (l.createTable strategy capacity).2.account? e = l.account? e := by
  unfold createTable
  split <;> rfl

theorem roster?_freeTable (l : Ledger V K) (t u : TableId) :
    ({ l with rosters := l.rosters.set t none } : Ledger V K).roster? u =
      if u = t then none else l.roster? u := by
  simp only [roster?, List.getElem?_set]
  by_cases hu : u = t
  · subst hu
    by_cases hlt : u < l.rosters.length <;> simp [hlt]
  · simp [hu, Ne.symm hu]

theorem held?_eq_some_iff :
    l.held? e = some a ↔ l.account? e = some a ∧ 0 < a.references := by
  simp [held?, Option.filter_eq_some_iff]

theorem isLinked_iff :
    l.isLinked e = true ↔ ∃ t r, l.roster? t = some r ∧ e ∈ r.elements := by
  simp only [isLinked, List.any_eq_true, Option.any_eq_true, List.contains_iff_mem, roster?,
    Option.join_eq_some_iff]
  constructor
  · rintro ⟨_, hmem, r, rfl, he⟩
    obtain ⟨t, ht⟩ := List.getElem?_of_mem hmem
    exact ⟨t, r, ht, he⟩
  · rintro ⟨t, r, ht, he⟩
    exact ⟨some r, List.mem_of_getElem? ht, r, rfl, he⟩

/-! ## Outcomes -/

variable {l' : Ledger V K} {i number : Nat} {choose : Nat → V → Choice}

theorem hash_cases {key : K} {result : Except Refusal Unit}
    (h : l.hash t e key = some (result, l')) :
    ∃ r a, l.roster? t = some r ∧ l.held? e = some a ∧
      ((r.strategy.equal a.value key = false ∧ result = .error .keyMismatch ∧ l' = l) ∨
        (r.strategy.equal a.value key = true ∧ l.isLinked e = true ∧
          result = .error .alreadyHashed ∧ l' = l) ∨
        (r.strategy.equal a.value key = true ∧ l.isLinked e = false ∧
          (∃ f, l.find? r key = some f) ∧ result = .error .duplicateKey ∧ l' = l) ∨
        (r.strategy.equal a.value key = true ∧ l.isLinked e = false ∧ l.find? r key = none ∧
          result = .ok () ∧ l' = (l.updateRoster t fun r => r.insert e key).updateAccount e
            fun a => { a with release := r.strategy.release })) := by
  simp only [hash, Option.bind_eq_bind, Option.bind_eq_some_iff, Option.pure_def] at h
  obtain ⟨r, hr, a, ha, h⟩ := h
  refine ⟨r, a, hr, ha, ?_⟩
  cases hequal : r.strategy.equal a.value key
  · simp_all
  cases hlinked : l.isLinked e
  · cases hfind : l.find? r key <;> simp_all
  · simp_all

theorem unhash_cases {result : Except Refusal Unit} (h : l.unhash t e = some (result, l')) :
    ∃ r a, l.roster? t = some r ∧ l.held? e = some a ∧
      ((e ∈ r.elements ∧ result = .ok () ∧ l' = l.detach t e) ∨
        (e ∉ r.elements ∧ result = .error .notHashed ∧ l' = l)) := by
  simp only [unhash, Option.bind_eq_bind, Option.bind_eq_some_iff, Option.pure_def] at h
  obtain ⟨r, hr, a, ha, h⟩ := h
  refine ⟨r, a, hr, ha, ?_⟩
  by_cases he : e ∈ r.elements <;> simp_all

theorem lookup_cases {key : K} {result : Except Refusal ElementId}
    (h : l.lookup t key = some (result, l')) :
    ∃ r, l.roster? t = some r ∧ ((l.find? r key = none ∧ result = .error .notFound ∧ l' = l) ∨
      ∃ e, l.find? r key = some e ∧ result = .ok e ∧ l' = l.lend e) := by
  simp only [lookup, Option.bind_eq_bind, Option.bind_eq_some_iff, Option.pure_def] at h
  obtain ⟨r, hr, h⟩ := h
  refine ⟨r, hr, ?_⟩
  cases hfind : l.find? r key <;> simp_all

theorem walk_eq_some_iff {answer : List (Visit V) × Ledger V K} :
    l.walk t i number choose = some answer ↔
      ∃ r, l.roster? t = some r ∧ i < r.capacity.size ∧
        visit t choose (r.bucket i) number l = some answer := by
  simp only [walk, Option.bind_eq_bind, Option.bind_eq_some_iff]
  refine exists_congr fun r => and_congr_right fun _ => ?_
  by_cases hi : i < r.capacity.size <;> simp [hi]

theorem drain_eq_some_iff {released : List ElementId} :
    l.drain t i = some (released, l') ↔
      ∃ r, l.roster? t = some r ∧ i < r.capacity.size ∧ released = (r.bucket i).map Prod.fst ∧
        l' = released.foldl (fun l e => l.detach t e) l := by
  simp only [drain, Option.bind_eq_bind, Option.bind_eq_some_iff, Option.pure_def]
  refine exists_congr fun r => and_congr_right fun _ => ?_
  by_cases hi : i < r.capacity.size <;> grind

end Ledger

namespace Roster

variable {V K : Type} {r : Roster V K} {e : ElementId}

theorem slot_lt (r : Roster V K) (hash : UInt32) : r.slot hash < r.capacity.size := by
  have hmask := r.capacity.toNat_mask
  have hpos := r.capacity.size_pos
  unfold slot
  rw [UInt64.toNat_and]
  exact Nat.lt_of_le_of_lt Nat.and_le_right (by omega)

theorem mem_elements_iff : e ∈ r.elements ↔ ∃ hash, (e, hash) ∈ r.entries := by
  simp [elements]

theorem mem_bucket_iff {i : Nat} {hash : UInt32} :
    (e, hash) ∈ r.bucket i ↔ (e, hash) ∈ r.entries ∧ r.slot hash = i := by
  simp [bucket]

@[simp] theorem elements_remove (r : Roster V K) (e : ElementId) :
    (r.remove e).elements = r.elements.filter fun f => f ≠ e := by
  simp [remove, elements, List.filter_map, Function.comp_def]

theorem mem_entries_remove {f : ElementId} {hash : UInt32} :
    (f, hash) ∈ (r.remove e).entries ↔ (f, hash) ∈ r.entries ∧ f ≠ e := by
  simp [remove]

@[simp] theorem remove_insert (r : Roster V K) (e : ElementId) (key : K) :
    (r.insert e key).remove e = r.remove e := by
  simp [remove, insert]

@[simp] theorem remove_remove (r : Roster V K) (e : ElementId) :
    (r.remove e).remove e = r.remove e := by
  simp [remove, List.filter_filter]

theorem bucket_remove (r : Roster V K) (e : ElementId) (i : Nat) :
    (r.remove e).bucket i = (r.bucket i).filter fun entry => entry.1 ≠ e := by
  simp only [bucket, remove, slot, List.filter_filter]
  exact List.filter_congr fun entry _ => Bool.and_comm _ _

end Roster

end HashIndex
