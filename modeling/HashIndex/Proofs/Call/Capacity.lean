import HashIndex.Proofs.Call
import Mathlib.Data.List.Forall2

/-!
# Capacities do not matter

How many buckets a table has decides where an element is looked for, and never which element is
found. Calls that do not go through buckets are answered alike whatever the capacities of the tables
are.

## Main definitions

* `Call.Alike`: calls that differ at most in the capacity of a table that is made.
* `Ledger.resize`: a ledger with all tables of one capacity.

## Main statements

* `Ledger.callAll_of_alike`: calls that are alike are answered alike.
-/

namespace HashIndex

variable {V K : Type}

/-- Whether a call asks for an element, a table or a number, and not for what is in buckets. -/
def Call.isPlain : Call V K → Bool
  | .create _ | .hold _ | .put _ | .createTable _ _ | .freeTable _ => true
  | .hash _ _ _ | .unhash _ _ | .lookup _ _ | .count _ => true
  | .lengths _ | .walk _ _ _ _ | .survey _ _ | .drain _ _ => false

/-- The same call, up to the capacity of a table that is made. -/
inductive Call.Alike : Call V K → Call V K → Prop
  | same {c : Call V K} (h : c.isPlain = true) : Alike c c
  | createTable (strategy : Strategy V K) (capacity capacity' : Capacity) :
    Alike (.createTable strategy capacity) (.createTable strategy capacity')

def Call.resize (capacity : Capacity) : Call V K → Call V K
  | .createTable strategy _ => .createTable strategy capacity
  | c => c

theorem Call.Alike.isPlain {c c' : Call V K} (h : c.Alike c') :
    c.isPlain = true ∧ c'.isPlain = true := by
  cases h with
  | same h => exact ⟨h, h⟩
  | createTable => exact ⟨rfl, rfl⟩

theorem Call.Alike.resize_eq {c c' : Call V K} (h : c.Alike c') (capacity : Capacity) :
    c.resize capacity = c'.resize capacity := by
  cases h <;> rfl

def Roster.resize (capacity : Capacity) (r : Roster V K) : Roster V K := { r with capacity }

@[simp] theorem Roster.strategy_resize (r : Roster V K) (capacity : Capacity) :
    (r.resize capacity).strategy = r.strategy := rfl

@[simp] theorem Roster.entries_resize (r : Roster V K) (capacity : Capacity) :
    (r.resize capacity).entries = r.entries := rfl

@[simp] theorem Roster.elements_resize (r : Roster V K) (capacity : Capacity) :
    (r.resize capacity).elements = r.elements := rfl

namespace Ledger

variable {l : Ledger V K}

def resize (capacity : Capacity) (l : Ledger V K) : Ledger V K :=
  { l with rosters := l.rosters.map (Option.map (Roster.resize capacity)) }

@[simp] theorem account?_resize (l : Ledger V K) (capacity : Capacity) (e : ElementId) :
    (l.resize capacity).account? e = l.account? e := rfl

@[simp] theorem held?_resize (l : Ledger V K) (capacity : Capacity) (e : ElementId) :
    (l.resize capacity).held? e = l.held? e := rfl

@[simp] theorem roster?_resize (l : Ledger V K) (capacity : Capacity) (t : TableId) :
    (l.resize capacity).roster? t = (l.roster? t).map (Roster.resize capacity) := by
  simp only [roster?, resize, List.getElem?_map]
  cases l.rosters[t]? <;> rfl

@[simp] theorem isLinked_resize (l : Ledger V K) (capacity : Capacity) (e : ElementId) :
    (l.resize capacity).isLinked e = l.isLinked e := by
  simp only [isLinked, resize, List.any_map]
  congr 1
  funext r
  cases r <;> rfl

@[simp] theorem find?_resize (l : Ledger V K) (capacity : Capacity) (r : Roster V K) (key : K) :
    (l.resize capacity).find? (r.resize capacity) key = l.find? r key := rfl

theorem resize_updateAccount (l : Ledger V K) (capacity : Capacity) (e : ElementId)
    (f : Account V → Account V) :
    (l.resize capacity).updateAccount e f = (l.updateAccount e f).resize capacity := rfl

theorem resize_lend (l : Ledger V K) (capacity : Capacity) (e : ElementId) :
    (l.resize capacity).lend e = (l.lend e).resize capacity := rfl

theorem resize_updateRoster (l : Ledger V K) (capacity : Capacity) (t : TableId)
    {f : Roster V K → Roster V K} (hf : ∀ r, f (r.resize capacity) = (f r).resize capacity) :
    (l.resize capacity).updateRoster t f = (l.updateRoster t f).resize capacity := by
  unfold resize updateRoster
  congr 1
  refine List.ext_getElem? fun u => ?_
  simp only [List.getElem?_modify, List.getElem?_map]
  cases l.rosters[u]? with
  | none => rfl
  | some r => cases r <;> by_cases hu : t = u <;> simp [hu, hf]

theorem resize_detach (l : Ledger V K) (capacity : Capacity) (t : TableId) (e : ElementId) :
    (l.resize capacity).detach t e = (l.detach t e).resize capacity := by
  have hremove := l.resize_updateRoster capacity t (f := fun r => r.remove e) fun _ => rfl
  unfold detach
  rw [hremove, resize_lend]

theorem resize_createTable (l : Ledger V K) (strategy : Strategy V K) (capacity k : Capacity) :
    (l.resize k).createTable strategy k = ((l.createTable strategy capacity).1,
      (l.createTable strategy capacity).2.resize k) := by
  have hfind : (l.resize k).rosters.findIdx? Option.isNone =
      l.rosters.findIdx? Option.isNone := by
    simp only [resize, List.findIdx?_map]
    congr 1
    funext r
    cases r <;> rfl
  unfold createTable
  rw [hfind]
  cases l.rosters.findIdx? Option.isNone with
  | some t => simp [resize, List.map_set, Roster.resize]
  | none => simp [resize, Roster.resize]

theorem resize_hash (l : Ledger V K) (capacity : Capacity) (t : TableId) (e : ElementId)
    (key : K) : (l.resize capacity).hash t e key =
      (l.hash t e key).map fun (result, l') => (result, l'.resize capacity) := by
  have hinsert := l.resize_updateRoster capacity t (f := fun r => r.insert e key) fun _ => rfl
  unfold hash
  rw [roster?_resize, held?_resize, isLinked_resize, hinsert]
  cases l.roster? t with
  | none => rfl
  | some r =>
    cases l.held? e with
    | none => rfl
    | some a =>
      by_cases hequal : r.strategy.equal a.value key = true
      · by_cases hlinked : l.isLinked e = true
        · simp [hequal, hlinked]
        · cases hfind : l.find? r key <;> simp [hequal, hlinked, hfind, resize_updateAccount]
      · simp [hequal]

theorem resize_lookup (l : Ledger V K) (capacity : Capacity) (t : TableId) (key : K) :
    (l.resize capacity).lookup t key =
      (l.lookup t key).map fun (result, l') => (result, l'.resize capacity) := by
  unfold lookup
  rw [roster?_resize]
  cases l.roster? t with
  | none => rfl
  | some r =>
    simp only [Option.map_some, Option.bind_eq_bind, Option.bind_some, find?_resize,
      Option.pure_def]
    split <;> rfl

theorem resize_unhash (l : Ledger V K) (capacity : Capacity) (t : TableId) (e : ElementId) :
    (l.resize capacity).unhash t e =
      (l.unhash t e).map fun (result, l') => (result, l'.resize capacity) := by
  unfold unhash
  rw [roster?_resize, held?_resize, resize_detach]
  cases l.roster? t with
  | none => rfl
  | some r =>
    cases l.held? e with
    | none => rfl
    | some a =>
      simp only [Option.map_some, Option.bind_eq_bind, Option.bind_some, Option.pure_def,
        Roster.elements_resize]
      by_cases he : e ∈ r.elements <;> simp [he]

theorem resize_put (l : Ledger V K) (capacity : Capacity) (e : ElementId) :
    (l.resize capacity).put e =
      (l.put e).map fun (destroyed, l') => (destroyed, l'.resize capacity) := by
  unfold put
  rw [held?_resize, isLinked_resize, resize_updateAccount]
  cases l.held? e with
  | none => rfl
  | some a =>
    simp only [Option.bind_eq_bind, Option.bind_some, Option.pure_def]
    split <;> rfl

theorem resize_freeTable (l : Ledger V K) (capacity : Capacity) (t : TableId) :
    (l.resize capacity).freeTable t = (l.freeTable t).map (resize capacity) := by
  unfold freeTable
  rw [roster?_resize]
  cases l.roster? t with
  | none => rfl
  | some r =>
    simp only [Option.map_some, Option.bind_eq_bind, Option.bind_some, Option.pure_def,
      Roster.entries_resize]
    by_cases hempty : r.entries = [] <;> simp [hempty, resize, List.map_set]

/-- A plain call does to a ledger with other capacities what it does to the ledger. -/
theorem call_resize (capacity : Capacity) {c : Call V K} (hplain : c.isPlain = true) :
    (l.resize capacity).call (c.resize capacity) =
      (l.call c).map fun (reply, l') => (reply, l'.resize capacity) := by
  cases c with
  | create value => rfl
  | hold e =>
    simp only [Call.resize, call, hold, held?_resize, resize_lend]
    cases l.held? e <;> rfl
  | put e =>
    simp only [Call.resize, call, resize_put]
    cases l.put e <;> rfl
  | createTable strategy k =>
    simp only [Call.resize, call, l.resize_createTable strategy k capacity, Option.map_some]
  | freeTable t =>
    simp only [Call.resize, call, resize_freeTable]
    cases l.freeTable t <;> rfl
  | hash t e key =>
    simp only [Call.resize, call, resize_hash]
    cases l.hash t e key <;> rfl
  | unhash t e =>
    simp only [Call.resize, call, resize_unhash]
    cases l.unhash t e <;> rfl
  | lookup t key =>
    simp only [Call.resize, call, resize_lookup]
    cases l.lookup t key <;> rfl
  | count t =>
    simp only [Call.resize, call, roster?_resize]
    cases l.roster? t <;> rfl
  | lengths | walk | survey | drain => cases hplain

/-- Calls that do not ask for buckets are answered alike for all capacities. -/
theorem callAll_resize (capacity : Capacity) {calls : List (Call V K)}
    (hplain : ∀ c ∈ calls, c.isPlain = true) :
    (l.resize capacity).callAll (calls.map (Call.resize capacity)) =
      (l.callAll calls).map fun (replies, l') => (replies, l'.resize capacity) := by
  induction calls generalizing l with
  | nil => rfl
  | cons c calls ih =>
    simp only [List.map_cons, callAll, call_resize capacity (hplain c (by simp))]
    cases l.call c with
    | none => rfl
    | some answer =>
      obtain ⟨reply, l₁⟩ := answer
      have hrest := ih (l := l₁) fun d hd => hplain d (by simp [hd])
      simp only [Option.map_some, Option.bind_eq_bind, Option.bind_some, hrest]
      cases l₁.callAll calls <;> rfl

theorem isPlain_of_alike {calls calls' : List (Call V K)}
    (halike : List.Forall₂ Call.Alike calls calls') :
    (∀ c ∈ calls, c.isPlain = true) ∧ ∀ c ∈ calls', c.isPlain = true := by
  induction halike with
  | nil => simp
  | cons hc _ ih =>
    obtain ⟨hplain, hplain'⟩ := hc.isPlain
    simp only [List.mem_cons, forall_eq_or_imp]
    exact ⟨⟨hplain, ih.1⟩, hplain', ih.2⟩

theorem map_resize_of_alike {calls calls' : List (Call V K)}
    (halike : List.Forall₂ Call.Alike calls calls') (capacity : Capacity) :
    calls.map (Call.resize capacity) = calls'.map (Call.resize capacity) := by
  induction halike with
  | nil => rfl
  | cons hc _ ih => rw [List.map_cons, List.map_cons, hc.resize_eq capacity, ih]

/-- Calls that differ at most in the capacities of tables are answered alike. -/
theorem callAll_of_alike {calls calls' : List (Call V K)} {replies : List (Reply V)}
    (halike : List.Forall₂ Call.Alike calls calls')
    (h : empty.callAll calls = some (replies, l)) :
    ∃ l', empty.callAll calls' = some (replies, l') := by
  obtain ⟨hplain, hplain'⟩ := isPlain_of_alike halike
  have hleft := callAll_resize (l := empty) .least hplain
  have hright := callAll_resize (l := empty) .least hplain'
  rw [← map_resize_of_alike halike, hleft, h, Option.map_some, eq_comm,
    Option.map_eq_some_iff] at hright
  obtain ⟨⟨replies', l'⟩, hcalls, heq⟩ := hright
  obtain ⟨rfl, -⟩ := Prod.mk.inj heq
  exact ⟨l', hcalls⟩

end Ledger

end HashIndex
