import HashIndex.Proofs.Call

/-!
# What calls do to a ledger

A call hands references out, takes one back, links an element, or makes or forgets an element or a
table. Everything that calls preserve follows from this and from no other property of them.

## Main definitions

* `Ledger.Yields`: references are handed out, and elements may leave their tables meanwhile.
* `Call.handed`, `Call.returned`: the references that a call hands out and takes back.
* `Ledger.Effect`: what a call can do.

## Main statements

* `Ledger.effect_of_call`: calls do nothing else.
* `Ledger.Effect.references`: no reference appears or gets lost.
-/

namespace HashIndex

variable {V K : Type}

def Ledger.heldBy (visits : List (Visit V)) : List ElementId :=
  (visits.filter fun visit => visit.choice.hold).map Visit.element

/-- The references that come to the caller with the answer to a call. -/
def Call.handed : Call V K → Reply V → List ElementId
  | .create _, .created e => [e]
  | .hold e, _ => [e]
  | .unhash _ e, .result (.ok ()) => [e]
  | .lookup _ _, .found (.ok e) => [e]
  | .walk _ _ _ _, .walked visits released => Ledger.heldBy visits ++ released
  | .survey _ _, .surveyed visits => Ledger.heldBy visits.flatten
  | .drain _ _, .released elements => elements
  | _, _ => []

/-- The reference that the caller gives away with a call. -/
def Call.returned : Call V K → List ElementId
  | .put e => [e]
  | _ => []

/-- A roster without some of its elements; those that stay are in the same order. -/
structure Roster.Thins (r r' : Roster V K) (gone : List ElementId) : Prop where
  strategy : r'.strategy = r.strategy
  capacity : r'.capacity = r.capacity
  sublist : r'.entries.Sublist r.entries
  kept : ∀ entry ∈ r.entries, entry.1 ∉ gone → entry ∈ r'.entries

def Roster.without (r : Roster V K) (es : List ElementId) : Roster V K :=
  { r with entries := r.entries.filter fun entry => entry.1 ∉ es }

@[simp] theorem Roster.without_nil (r : Roster V K) : r.without [] = r := by
  simp [without]

theorem Roster.without_append (r : Roster V K) (es fs : List ElementId) :
    r.without (es ++ fs) = (r.without es).without fs := by
  simp only [without, List.filter_filter, List.mem_append, not_or]
  congr 2
  funext entry
  simp [Bool.and_comm]

theorem Roster.remove_eq_without (r : Roster V K) (e : ElementId) : r.remove e = r.without [e] := by
  simp [remove, without]

theorem Roster.Thins.refl (r : Roster V K) (gone : List ElementId) : r.Thins r gone :=
  ⟨rfl, rfl, List.Sublist.refl _, fun _ h _ => h⟩

namespace Ledger

variable {l l' l'' : Ledger V K} {es fs : List ElementId} {e : ElementId} {t : TableId}
  {r r' : Roster V K} {a a' : Account V} {c : Call V K} {reply : Reply V}

/-- The references to an element outside the tables; none if the element is gone. -/
def references (l : Ledger V K) (e : ElementId) : Nat :=
  ((l.account? e).map Account.references).getD 0

def Covered (l : Ledger V K) : Prop :=
  ∀ t r, l.roster? t = some r → ∀ e ∈ r.elements, ∃ a, l.account? e = some a

/-- References to elements are handed out, latest first, and elements may leave their tables
meanwhile. -/
inductive Yields (l : Ledger V K) : List ElementId → Ledger V K → Prop
  | refl : Yields l [] l
  | lend {es : List ElementId} {l' : Ledger V K} {e : ElementId} {a : Account V}
    (ha : l.account? e = some a) (h : Yields l es l') : Yields l (e :: es) (l'.lend e)
  | detach {es : List ElementId} {l' : Ledger V K} (t : TableId) {e : ElementId} {a : Account V}
    (ha : l.account? e = some a) (h : Yields l es l') : Yields l (e :: es) (l'.detach t e)

theorem Yields.account?_eq (h : l.Yields es l') (e : ElementId) :
    l'.account? e =
      (l.account? e).map fun a => { a with references := a.references + es.count e } := by
  have hstep : ∀ (l₁ : Ledger V K) (es : List ElementId) (f : ElementId),
      l₁.account? e = (l.account? e).map
        (fun a => { a with references := a.references + es.count e }) →
      (if e = f then (l₁.account? f).map fun a => { a with references := a.references + 1 }
        else l₁.account? e) = (l.account? e).map
        fun a => { a with references := a.references + (f :: es).count e } := by
    intro l₁ es f ih
    by_cases hf : e = f
    · subst hf
      simp [ih, Nat.add_assoc, Function.comp_def]
    · simp [ih, hf, Ne.symm hf]
  induction h with
  | refl => simp
  | @lend _ _ f _ _ _ ih =>
    rw [account?_lend]
    exact hstep _ _ f ih
  | @detach _ _ t f _ _ _ ih =>
    rw [account?_detach]
    exact hstep _ _ f ih

theorem Yields.exists_account_of (h : l.Yields es l') (ha : l'.account? e = some a') :
    ∃ a, l.account? e = some a ∧ a' = { a with references := a.references + es.count e } := by
  rw [h.account?_eq, Option.map_eq_some_iff] at ha
  obtain ⟨a, ha, rfl⟩ := ha
  exact ⟨a, ha, rfl⟩

theorem Yields.exists_account (h : l.Yields es l') (he : e ∈ es) :
    ∃ a, l.account? e = some a := by
  induction h with
  | refl => cases he
  | lend ha _ ih | detach _ ha _ ih =>
    rcases List.mem_cons.mp he with rfl | he
    · exact ⟨_, ha⟩
    · exact ih he

theorem Yields.trans (h : l.Yields es l') (h' : l'.Yields fs l'') : l.Yields (fs ++ es) l'' := by
  induction h' with
  | refl => exact h
  | lend ha _ ih =>
    obtain ⟨a, ha, -⟩ := h.exists_account_of ha
    exact .lend ha ih
  | detach t ha _ ih =>
    obtain ⟨a, ha, -⟩ := h.exists_account_of ha
    exact .detach t ha ih

/-- A roster gets thinner by the elements that leave it. -/
theorem Yields.roster? (h : l.Yields es l') (t : TableId) :
    Option.Rel (fun r r' => r.Thins r' es) (l.roster? t) (l'.roster? t) := by
  induction h with
  | refl =>
    cases l.roster? t with
    | none => exact .none
    | some r => exact .some (.refl r _)
  | lend _ _ ih =>
    rw [roster?_lend]
    exact rel_of_rel (fun r r' _ _ h => ⟨h.strategy, h.capacity, h.sublist,
      fun entry he hf => h.kept entry he fun hmem => hf (by simp [hmem])⟩) ih
  | detach u _ _ ih =>
    rw [roster?_detach]
    by_cases hu : t = u
    · subst hu
      rw [if_pos rfl]
      refine rel_map_right (fun r r' h => ?_) ih
      refine ⟨h.strategy, h.capacity, List.filter_sublist.trans h.sublist, fun entry he hf => ?_⟩
      rw [List.mem_cons, not_or] at hf
      exact Roster.mem_entries_remove.mpr ⟨h.kept entry he hf.2, hf.1⟩
    · rw [if_neg hu]
      exact rel_of_rel (fun r r' _ _ h => ⟨h.strategy, h.capacity, h.sublist,
        fun entry he hf => h.kept entry he fun hmem => hf (by simp [hmem])⟩) ih

theorem Yields.exists_roster (h : l.Yields es l') (hr : l.roster? t = some r) :
    ∃ r', l'.roster? t = some r' ∧ r.Thins r' es := by
  have hrel := h.roster? t
  rw [hr] at hrel
  cases hr' : l'.roster? t <;> simp_all

theorem Yields.exists_roster_of (h : l.Yields es l') (hr : l'.roster? t = some r') :
    ∃ r, l.roster? t = some r ∧ r.Thins r' es := by
  have hrel := h.roster? t
  rw [hr] at hrel
  cases hr' : l.roster? t <;> simp_all

/-! ## The operations that only yield references -/

theorem yields_lend (ha : l.account? e = some a) : l.Yields [e] (l.lend e) := .lend ha .refl

theorem yields_detach (t : TableId) (ha : l.account? e = some a) : l.Yields [e] (l.detach t e) :=
  .detach t ha .refl

theorem yields_treat (t : TableId) (ha : l.account? e = some a) (choice : Choice) :
    ∃ es, l.Yields es (l.treat t e choice) ∧
      es.Perm ((if choice.hold then [e] else []) ++ if choice.unhash then [e] else []) := by
  rcases choice with ⟨_ | _, _ | _⟩
  · exact ⟨[], .refl, .refl _⟩
  · exact ⟨[e], yields_detach t ha, .refl _⟩
  · exact ⟨[e], yields_lend ha, .refl _⟩
  · exact ⟨[e, e], .detach t ha (yields_lend ha), .refl _⟩

theorem heldBy_cons (v : Visit V) (visits : List (Visit V)) :
    heldBy (v :: visits) = (if v.choice.hold then [v.element] else []) ++ heldBy visits := by
  simp only [heldBy, List.filter_cons]
  split <;> rfl

theorem takenOut_cons (v : Visit V) (visits : List (Visit V)) :
    takenOut (v :: visits) = (if v.choice.unhash then [v.element] else []) ++ takenOut visits := by
  simp only [takenOut, List.filter_cons]
  split <;> rfl

theorem heldBy_append (visits visits' : List (Visit V)) :
    heldBy (visits ++ visits') = heldBy visits ++ heldBy visits' := by
  simp [heldBy]

theorem takenOut_eq_nil {visits : List (Visit V)} (hnone : ∀ v ∈ visits, v.choice.unhash = false) :
    takenOut visits = [] := by
  simpa [takenOut] using hnone

/-- Visits hand out the references that are held, and those of the elements taken out. -/
theorem yields_of_visit {choose : Nat → V → Choice} {entries : List (ElementId × UInt32)}
    {number : Nat} {visits : List (Visit V)}
    (h : visit t choose entries number l = some (visits, l')) :
    ∃ es, l.Yields es l' ∧ es.Perm (heldBy visits ++ takenOut visits) := by
  induction entries generalizing l number visits with
  | nil =>
    obtain ⟨rfl, rfl⟩ := by simpa [visit] using h
    exact ⟨[], .refl, .refl _⟩
  | cons entry entries ih =>
    obtain ⟨e, hash⟩ := entry
    simp only [visit, Option.bind_eq_bind, Option.bind_eq_some_iff, Option.pure_def,
      Option.some.injEq, Prod.mk.injEq, Prod.exists] at h
    obtain ⟨a, ha, visits, l', hvisits, rfl, rfl⟩ := h
    obtain ⟨es, hes, hperm⟩ := yields_treat t ha (choose number a.value)
    obtain ⟨fs, hfs, hperm'⟩ := ih hvisits
    refine ⟨fs ++ es, hes.trans hfs, ?_⟩
    rw [List.perm_iff_count] at hperm hperm' ⊢
    intro f
    have hes := hperm f
    have hfs := hperm' f
    simp only [heldBy_cons, takenOut_cons, List.count_append] at hes hfs ⊢
    omega

/-- What was done with an element is what was chosen. -/
theorem choice_of_visit {choose : Nat → V → Choice} {entries : List (ElementId × UInt32)}
    {number : Nat} {visits : List (Visit V)}
    (h : visit t choose entries number l = some (visits, l')) :
    ∀ v ∈ visits, v.choice = choose v.number v.value := by
  induction entries generalizing l number visits with
  | nil =>
    obtain ⟨rfl, rfl⟩ := by simpa [visit] using h
    simp
  | cons entry entries ih =>
    simp only [visit, Option.bind_eq_bind, Option.bind_eq_some_iff, Option.pure_def,
      Option.some.injEq, Prod.mk.injEq, Prod.exists] at h
    obtain ⟨a, -, visits, l', hvisits, rfl, rfl⟩ := h
    intro v hv
    rcases List.mem_cons.mp hv with rfl | hv
    · rfl
    · exact ih hvisits v hv

theorem choice_of_survey {choose : Nat → V → Bool} {buckets : List Nat} {number : Nat}
    {visits : List (List (Visit V))}
    (h : surveyBuckets t choose buckets number l = some (visits, l')) :
    ∀ v ∈ visits.flatten, v.choice = ⟨choose v.number v.value, false⟩ := by
  induction buckets generalizing l number visits with
  | nil =>
    obtain ⟨rfl, rfl⟩ := by simpa [surveyBuckets] using h
    simp
  | cons i buckets ih =>
    simp only [surveyBuckets, Option.bind_eq_bind, Option.bind_eq_some_iff, Option.pure_def,
      Option.some.injEq, Prod.mk.injEq, Prod.exists, walk_eq_some_iff] at h
    obtain ⟨first, l₁, ⟨r, -, -, hfirst⟩, rest, l₂, hrest, rfl, rfl⟩ := h
    intro v hv
    rcases List.mem_append.mp (List.flatten_cons ▸ hv) with hv | hv
    · exact choice_of_visit hfirst v hv
    · exact ih hrest v hv

theorem yields_of_survey {choose : Nat → V → Bool} {buckets : List Nat} {number : Nat}
    {visits : List (List (Visit V))}
    (h : surveyBuckets t choose buckets number l = some (visits, l')) :
    ∃ es, l.Yields es l' ∧ es.Perm (heldBy visits.flatten) := by
  induction buckets generalizing l number visits with
  | nil =>
    obtain ⟨rfl, rfl⟩ := by simpa [surveyBuckets] using h
    exact ⟨[], .refl, .refl _⟩
  | cons i buckets ih =>
    simp only [surveyBuckets, Option.bind_eq_bind, Option.bind_eq_some_iff, Option.pure_def,
      Option.some.injEq, Prod.mk.injEq, Prod.exists, walk_eq_some_iff] at h
    obtain ⟨first, l₁, ⟨r, -, -, hfirst⟩, rest, l₂, hrest, rfl, rfl⟩ := h
    obtain ⟨es, hes, hperm⟩ := yields_of_visit hfirst
    obtain ⟨fs, hfs, hperm'⟩ := ih hrest
    have hnone : takenOut first = [] :=
      takenOut_eq_nil fun v hv => by rw [choice_of_visit hfirst v hv]
    refine ⟨fs ++ es, hes.trans hfs, ?_⟩
    rw [hnone, List.append_nil] at hperm
    rw [List.flatten_cons, heldBy_append]
    exact (List.perm_append_comm).trans (hperm.append hperm')

theorem yields_foldl_detach (t : TableId) (hlive : ∀ e ∈ es, ∃ a, l.account? e = some a) :
    l.Yields es.reverse (es.foldl (fun l e => l.detach t e) l) := by
  induction es generalizing l with
  | nil => exact .refl
  | cons e es ih =>
    rw [List.foldl_cons, List.reverse_cons]
    obtain ⟨a, ha⟩ := hlive e (by simp)
    have hfirst := yields_detach t ha
    refine hfirst.trans (ih fun f hf => ?_)
    obtain ⟨b, hb⟩ := hlive f (by simp [hf])
    exact ⟨_, (hfirst.account?_eq f).trans (by rw [hb, Option.map_some])⟩

/-! ## All calls -/

/-- What a call can do: make an element or a table, put a reference, forget a table, link an
element, or hand out references. -/
inductive Effect (l : Ledger V K) : Call V K → Reply V → Ledger V K → Prop
  | create (value : V) : l.Effect (.create value) (.created (l.create value).1) (l.create value).2
  | put {e : ElementId} {destroyed : Option (Account V)} {l' : Ledger V K}
    (h : l.put e = some (destroyed, l')) :
    l.Effect (.put e) (.destroyed (destroyed.map fun a => (a.value, a.release))) l'
  | createTable (strategy : Strategy V K) (capacity : Capacity) :
    l.Effect (.createTable strategy capacity) (.made (l.createTable strategy capacity).1)
      (l.createTable strategy capacity).2
  | freeTable {t : TableId} {r : Roster V K} (hr : l.roster? t = some r)
    (hempty : r.entries = []) :
    l.Effect (.freeTable t) .done { l with rosters := l.rosters.set t none }
  | link {t : TableId} {e : ElementId} {key : K} {r : Roster V K} {a : Account V}
    (hr : l.roster? t = some r) (ha : l.held? e = some a)
    (hequal : r.strategy.equal a.value key = true) (hlinked : l.isLinked e = false)
    (hfind : l.find? r key = none) :
    l.Effect (.hash t e key) (.result (.ok ()))
      ((l.updateRoster t fun r => r.insert e key).updateAccount e
        fun a => { a with release := r.strategy.release })
  | yields {c : Call V K} {reply : Reply V} {es : List ElementId} {l' : Ledger V K}
    (h : l.Yields es l') (hperm : es.Perm (c.handed reply)) (hreturned : c.returned = [])
    (hfree : ∀ t, c ≠ .freeTable t) : l.Effect c reply l'

/-- All that a call can do, said once for all calls. -/
theorem effect_of_call (hcovered : l.Covered) (h : l.call c = some (reply, l')) :
    l.Effect c reply l' := by
  cases c <;> simp only [call, Option.bind_eq_bind, Option.bind_eq_some_iff, Option.pure_def,
    Option.some.injEq, Prod.mk.injEq, Prod.exists] at h
  case create value =>
    obtain ⟨rfl, rfl⟩ := h
    exact .create value
  case hold e =>
    obtain ⟨l₁, hhold, rfl, rfl⟩ := h
    simp only [hold, Option.bind_eq_bind, Option.bind_eq_some_iff, Option.pure_def,
      Option.some.injEq] at hhold
    obtain ⟨a, ha, rfl⟩ := hhold
    exact .yields (yields_lend (held?_eq_some_iff.mp ha).1) (.refl _) rfl (by simp)
  case put e =>
    obtain ⟨destroyed, l₁, hput, rfl, rfl⟩ := h
    exact .put hput
  case createTable strategy capacity =>
    obtain ⟨rfl, rfl⟩ := h
    exact .createTable strategy capacity
  case freeTable t =>
    obtain ⟨l₁, hfree, rfl, rfl⟩ := h
    simp only [freeTable, Option.bind_eq_bind, Option.bind_eq_some_iff, Option.pure_def] at hfree
    obtain ⟨r, hr, hfree⟩ := hfree
    split at hfree
    · cases hfree
    next hempty =>
      obtain rfl := Option.some.inj hfree
      exact .freeTable hr (Classical.not_not.mp hempty)
  case hash t e key =>
    obtain ⟨result, l₁, hhash, rfl, rfl⟩ := h
    obtain ⟨r, a, hr, ha, ⟨-, rfl, rfl⟩ | ⟨-, -, rfl, rfl⟩ | ⟨-, -, -, rfl, rfl⟩ |
      ⟨hequal, hlinked, hfind, rfl, rfl⟩⟩ := hash_cases hhash
    · exact .yields .refl (.refl _) rfl (by simp)
    · exact .yields .refl (.refl _) rfl (by simp)
    · exact .yields .refl (.refl _) rfl (by simp)
    · exact .link hr ha hequal hlinked hfind
  case unhash t e =>
    obtain ⟨result, l₁, hunhash, rfl, rfl⟩ := h
    obtain ⟨r, a, -, ha, ⟨-, rfl, rfl⟩ | ⟨-, rfl, rfl⟩⟩ := unhash_cases hunhash
    · exact .yields (yields_detach t (held?_eq_some_iff.mp ha).1) (.refl _) rfl (by simp)
    · exact .yields .refl (.refl _) rfl (by simp)
  case lookup t key =>
    obtain ⟨result, l₁, hlookup, rfl, rfl⟩ := h
    obtain ⟨r, hr, ⟨-, rfl, rfl⟩ | ⟨e, hfind, rfl, rfl⟩⟩ := lookup_cases hlookup
    · exact .yields .refl (.refl _) rfl (by simp)
    · obtain ⟨entry, hentry, rfl⟩ := Option.map_eq_some_iff.mp hfind
      have he := List.mem_map_of_mem (f := Prod.fst) (List.mem_of_find?_eq_some hentry)
      obtain ⟨a, ha⟩ := hcovered t r hr _ he
      exact .yields (yields_lend ha) (.refl _) rfl (by simp)
  case count t =>
    obtain ⟨r, -, rfl, rfl⟩ := h
    exact .yields .refl (.refl _) rfl (by simp)
  case lengths t =>
    obtain ⟨lengths, -, rfl, rfl⟩ := h
    exact .yields .refl (.refl _) rfl (by simp)
  case walk t bucket number choose =>
    obtain ⟨visits, l₁, hwalk, rfl, rfl⟩ := h
    obtain ⟨r, -, -, hvisit⟩ := walk_eq_some_iff.mp hwalk
    obtain ⟨es, hes, hperm⟩ := yields_of_visit hvisit
    exact .yields hes hperm rfl (by simp)
  case survey t choose =>
    obtain ⟨visits, l₁, hsurvey, rfl, rfl⟩ := h
    simp only [survey, Option.bind_eq_bind, Option.bind_eq_some_iff] at hsurvey
    obtain ⟨r, -, hsurvey⟩ := hsurvey
    obtain ⟨es, hes, hperm⟩ := yields_of_survey hsurvey
    exact .yields hes hperm rfl (by simp)
  case drain t bucket =>
    obtain ⟨released, l₁, hdrain, rfl, rfl⟩ := h
    obtain ⟨r, hr, -, rfl, rfl⟩ := drain_eq_some_iff.mp hdrain
    have hlive : ∀ e ∈ (r.bucket bucket).map Prod.fst, ∃ a, l.account? e = some a :=
      fun e he => hcovered t r hr e ((List.Sublist.map _ List.filter_sublist).subset he)
    exact .yields (yields_foldl_detach t hlive) (List.reverse_perm _) rfl (by simp)

theorem eq_of_lengths (h : l.call (.lengths t) = some (reply, l')) : l' = l := by
  obtain ⟨lengths, -, h⟩ := Option.bind_eq_some_iff.mp h
  exact ((Prod.mk.inj (Option.some.inj h)).2).symm

theorem roster?_foldl_detach (hr : l.roster? t = some r) (es : List ElementId) (u : TableId) :
    (es.foldl (fun l e => l.detach t e) l).roster? u =
      if u = t then some (r.without es) else l.roster? u := by
  induction es generalizing l r with
  | nil => split <;> simp_all
  | cons e es ih =>
    have hr' : (l.detach t e).roster? t = some (r.without [e]) := by
      rw [roster?_detach, if_pos rfl, hr, Option.map_some, Roster.remove_eq_without]
    rw [List.foldl_cons, ih hr', roster?_detach, ← Roster.without_append, List.singleton_append]
    split <;> rfl

/-- What is left of a table after a bucket was drained falls into the other buckets. -/
theorem mem_entries_of_drain {i : Nat} {entry : ElementId × UInt32}
    (h : l.call (.drain t i) = some (reply, l')) (hr' : l'.roster? t = some r')
    (hentry : entry ∈ r'.entries) :
    ∃ r, l.roster? t = some r ∧ entry ∈ r.entries ∧ r.slot entry.2 ≠ i ∧
      r'.slot entry.2 = r.slot entry.2 := by
  obtain ⟨⟨released, l₁⟩, hdrain, h⟩ := Option.bind_eq_some_iff.mp h
  obtain ⟨-, rfl⟩ := Prod.mk.inj (Option.some.inj h)
  obtain ⟨r, hr, -, rfl, rfl⟩ := drain_eq_some_iff.mp hdrain
  rw [roster?_foldl_detach hr, if_pos rfl] at hr'
  obtain rfl := Option.some.inj hr'
  obtain ⟨hmem, hout⟩ := List.mem_filter.mp hentry
  refine ⟨r, hr, hmem, fun hslot => ?_, rfl⟩
  have hdrained : entry.1 ∈ (r.bucket i).map Prod.fst :=
    List.mem_map_of_mem (Roster.mem_bucket_iff.mpr ⟨hmem, hslot⟩)
  simp [hdrained] at hout

theorem handed_of_survey_none (h : l.call (.survey t fun _ _ => false) = some (reply, l')) :
    (Call.survey t fun _ (_ : V) => false : Call V K).handed reply = [] := by
  obtain ⟨⟨visits, l₁⟩, hsurvey, h⟩ := Option.bind_eq_some_iff.mp h
  obtain ⟨rfl, -⟩ := Prod.mk.inj (Option.some.inj h)
  obtain ⟨r, -, hsurvey⟩ := Option.bind_eq_some_iff.mp hsurvey
  refine List.map_eq_nil_iff.mpr (List.filter_eq_nil_iff.mpr fun v hv => ?_)
  simp [choice_of_survey hsurvey v hv]

/-! ## What is kept -/

/-- Putting a reference leaves the other accounts as they are, and the tables. -/
theorem put_cases {destroyed : Option (Account V)} (h : l.put e = some (destroyed, l')) :
    (∀ t, l'.roster? t = l.roster? t) ∧ ∃ a, l.account? e = some a ∧ 0 < a.references ∧
      ((a.references = 1 ∧ l.isLinked e = false ∧ destroyed = some a ∧
          ∀ f, l'.account? f = if f = e then none else l.account? f) ∨
        (¬(a.references = 1 ∧ l.isLinked e = false) ∧ destroyed = none ∧
          ∀ f, l'.account? f = if f = e then some { a with references := a.references - 1 }
            else l.account? f)) := by
  simp only [put, Option.bind_eq_bind, Option.bind_eq_some_iff, Option.pure_def] at h
  obtain ⟨a, ha, h⟩ := h
  obtain ⟨ha, hpos⟩ := held?_eq_some_iff.mp ha
  split at h
  next hlast =>
    obtain ⟨rfl, rfl⟩ := Prod.mk.inj (Option.some.inj h)
    exact ⟨fun _ => rfl, a, ha, hpos, .inl ⟨hlast.1, hlast.2, rfl, l.account?_close e⟩⟩
  next hlast =>
    obtain ⟨rfl, rfl⟩ := Prod.mk.inj (Option.some.inj h)
    refine ⟨fun _ => rfl, a, ha, hpos, .inr ⟨hlast, rfl, fun f => ?_⟩⟩
    rw [account?_updateAccount, ha, Option.map_some]

/-- No reference appears or gets lost: the caller has got those that a call hands out, and has no
more the one that he gave away with it. -/
theorem Effect.references (h : l.Effect c reply l') (e : ElementId) :
    l'.references e + c.returned.count e = l.references e + (c.handed reply).count e := by
  cases h with
  | create value =>
    simp only [Ledger.references, account?_create, Call.returned, Call.handed, List.count_nil,
      List.count_singleton, create_fst]
    by_cases he : e = l.accounts.length
    · simp [he, account?_length]
    · simp [he, Ne.symm he]
  | @put f destroyed l' h =>
    obtain ⟨-, a, ha, hpos, ⟨hone, -, -, haccount⟩ | ⟨-, -, haccount⟩⟩ := put_cases h
    all_goals
      simp only [Ledger.references, haccount, Call.returned, Call.handed, List.count_nil,
        List.count_singleton]
      by_cases he : e = f
      · subst he
        simp [ha]
        omega
      · simp [he, Ne.symm he]
  | createTable strategy capacity =>
    rw [Ledger.references, account?_createTable]
    rfl
  | freeTable => rfl
  | link =>
    simp only [Ledger.references, account?_updateAccount, account?_updateRoster]
    split
    · subst e
      simp [Call.returned, Call.handed, Function.comp_def]
    · rfl
  | yields h hperm hreturned _ =>
    rw [hreturned, ← hperm.count_eq, Ledger.references, Ledger.references, h.account?_eq]
    cases ha : l.account? e with
    | some a => simp
    | none =>
      have hout : e ∉ _ := fun he => by
        obtain ⟨a, ha'⟩ := h.exists_account he
        rw [ha] at ha'
        cases ha'
      simp [List.count_eq_zero_of_not_mem hout]

/-- A roster after a call: a part of the one before, a new one, or the one before with an element
that the call linked. -/
theorem Effect.roster (h : l.Effect c reply l') (hr' : l'.roster? t = some r') :
    (∃ r gone, l.roster? t = some r ∧ r.Thins r' gone ∧ gone ⊆ c.handed reply) ∨
      (∃ strategy capacity, c = .createTable strategy capacity ∧ reply = .made t ∧
        l.roster? t = none ∧ r' = ⟨strategy, capacity, []⟩) ∨
      ∃ e key r a, c = .hash t e key ∧ reply = .result (.ok ()) ∧ l.roster? t = some r ∧
        r' = r.insert e key ∧ l.account? e = some a ∧ r.strategy.equal a.value key = true ∧
        l.isLinked e = false ∧ l.find? r key = none := by
  cases h with
  | create | put h =>
    have hsame : l.roster? t = some r' := by
      first
        | exact hr'
        | exact (put_cases h).1 t ▸ hr'
    exact .inl ⟨r', [], hsame, .refl _ _, List.nil_subset _⟩
  | createTable strategy capacity =>
    obtain ⟨hnone, hroster⟩ := l.roster?_createTable strategy capacity
    rw [hroster] at hr'
    split at hr'
    · subst t
      obtain rfl := Option.some.inj hr'
      exact .inr (.inl ⟨strategy, capacity, rfl, rfl, hnone, rfl⟩)
    · exact .inl ⟨r', [], hr', .refl _ _, List.nil_subset _⟩
  | @freeTable u =>
    rw [roster?_freeTable] at hr'
    split at hr'
    · cases hr'
    · exact .inl ⟨r', [], hr', .refl _ _, List.nil_subset _⟩
  | @link u e key r a hr ha hequal hlinked hfind =>
    rw [roster?_updateAccount, roster?_updateRoster] at hr'
    split at hr'
    · subst t
      rw [hr, Option.map_some, Option.some.injEq] at hr'
      exact .inr (.inr ⟨e, key, r, a, rfl, rfl, hr, hr'.symm, (held?_eq_some_iff.mp ha).1, hequal,
        hlinked, hfind⟩)
    · exact .inl ⟨r', [], hr', .refl _ _, List.nil_subset _⟩
  | yields h hperm =>
    obtain ⟨r, hr, hthins⟩ := h.exists_roster_of hr'
    exact .inl ⟨r, _, hr, hthins, hperm.subset⟩

/-- A table lasts until it is forgotten, and it has no elements then. -/
theorem Effect.exists_roster (h : l.Effect c reply l') (hr : l.roster? t = some r) :
    (c = .freeTable t ∧ r.entries = [] ∧ l'.roster? t = none) ∨
      ∃ r', l'.roster? t = some r' ∧ r'.strategy = r.strategy ∧ r'.capacity = r.capacity ∧
        ∀ entry ∈ r.entries, entry.1 ∉ c.handed reply → entry ∈ r'.entries := by
  cases h with
  | create => exact .inr ⟨r, hr, rfl, rfl, fun _ h _ => h⟩
  | put h => exact .inr ⟨r, ((put_cases h).1 t).trans hr, rfl, rfl, fun _ h _ => h⟩
  | createTable strategy capacity =>
    obtain ⟨hnone, hroster⟩ := l.roster?_createTable strategy capacity
    refine .inr ⟨r, ?_, rfl, rfl, fun _ h _ => h⟩
    rw [hroster, if_neg, hr]
    rintro rfl
    rw [hr] at hnone
    cases hnone
  | @freeTable u r₁ hr₁ hempty =>
    rw [roster?_freeTable]
    by_cases ht : t = u
    · subst ht
      obtain rfl := Option.some.inj (hr.symm.trans hr₁)
      exact .inl ⟨rfl, hempty, if_pos rfl⟩
    · exact .inr ⟨r, by rw [if_neg ht, hr], rfl, rfl, fun _ h _ => h⟩
  | @link u e key r₁ a hr₁ =>
    rw [roster?_updateAccount, roster?_updateRoster]
    by_cases ht : t = u
    · subst ht
      refine .inr ⟨r.insert e key, by rw [if_pos rfl, hr, Option.map_some], rfl, rfl, ?_⟩
      intro entry he _
      exact List.mem_cons_of_mem _ he
    · exact .inr ⟨r, by rw [if_neg ht, hr], rfl, rfl, fun _ h _ => h⟩
  | yields h hperm =>
    obtain ⟨r', hr', hthins⟩ := h.exists_roster hr
    exact .inr ⟨r', hr', hthins.strategy, hthins.capacity,
      fun entry he hout => hthins.kept entry he fun hmem => hout (hperm.subset hmem)⟩

/-- The value of an element never changes, and a linked element lasts. -/
theorem Effect.exists_account (h : l.Effect c reply l') (ha : l.account? e = some a) :
    (c = .put e ∧ l.isLinked e = false) ∨ ∃ a', l'.account? e = some a' ∧ a'.value = a.value := by
  cases h with
  | create value =>
    refine .inr ⟨a, ?_, rfl⟩
    rw [account?_create, if_neg, ha]
    rintro rfl
    rw [account?_length] at ha
    cases ha
  | @put f destroyed l' h =>
    obtain ⟨-, b, hb, -, ⟨-, hlinked, -, haccount⟩ | ⟨-, -, haccount⟩⟩ := put_cases h
    · by_cases he : e = f
      · subst he
        exact .inl ⟨rfl, hlinked⟩
      · exact .inr ⟨a, by rw [haccount, if_neg he, ha], rfl⟩
    · by_cases he : e = f
      · subst he
        obtain rfl := Option.some.inj (ha.symm.trans hb)
        exact .inr ⟨_, (haccount e).trans (if_pos rfl), rfl⟩
      · exact .inr ⟨a, by rw [haccount, if_neg he, ha], rfl⟩
  | createTable strategy capacity =>
    exact .inr ⟨a, (account?_createTable l strategy capacity e).trans ha, rfl⟩
  | freeTable => exact .inr ⟨a, ha, rfl⟩
  | @link u f key r b =>
    simp only [account?_updateAccount, account?_updateRoster]
    by_cases he : e = f
    · subst he
      rw [if_pos rfl, ha, Option.map_some]
      exact .inr ⟨_, rfl, rfl⟩
    · exact .inr ⟨a, by rw [if_neg he, ha], rfl⟩
  | yields h =>
    have haccount := h.account?_eq e
    rw [ha, Option.map_some] at haccount
    exact .inr ⟨_, haccount, rfl⟩

/-- An element that is there after a call was there before, unless the call made it. -/
theorem Effect.exists_account_of (h : l.Effect c reply l') (ha' : l'.account? e = some a') :
    (c = .create a'.value ∧ reply = .created e ∧ l.account? e = none) ∨
      ∃ a, l.account? e = some a ∧ a.value = a'.value := by
  cases h with
  | create value =>
    rw [account?_create] at ha'
    split at ha'
    · subst e
      obtain rfl := Option.some.inj ha'
      exact .inl ⟨rfl, rfl, account?_length l⟩
    · exact .inr ⟨a', ha', rfl⟩
  | @put f destroyed l' h =>
    obtain ⟨-, b, hb, -, ⟨-, -, -, haccount⟩ | ⟨-, -, haccount⟩⟩ := put_cases h
    all_goals
      rw [haccount] at ha'
      split at ha'
    · cases ha'
    · exact .inr ⟨a', ha', rfl⟩
    · subst e
      obtain rfl := Option.some.inj ha'
      exact .inr ⟨b, hb, rfl⟩
    · exact .inr ⟨a', ha', rfl⟩
  | createTable strategy capacity =>
    exact .inr ⟨a', (account?_createTable l strategy capacity e).symm.trans ha', rfl⟩
  | freeTable => exact .inr ⟨a', ha', rfl⟩
  | @link u f key r b =>
    simp only [account?_updateAccount, account?_updateRoster] at ha'
    split at ha'
    · subst e
      obtain ⟨a, ha, rfl⟩ := Option.map_eq_some_iff.mp ha'
      exact .inr ⟨a, ha, rfl⟩
    · exact .inr ⟨a', ha', rfl⟩
  | yields h =>
    obtain ⟨a, ha, rfl⟩ := h.exists_account_of ha'
    exact .inr ⟨a, ha, rfl⟩

/-- An element that nobody refers to is in a table. -/
def Kept (l : Ledger V K) : Prop :=
  ∀ e a, l.account? e = some a → a.references = 0 → l.isLinked e = true

/-- A call keeps it so that what nobody refers to is in a table. -/
theorem Effect.kept (h : l.Effect c reply l') (hkept : l.Kept) : l'.Kept := by
  intro e a' ha' hzero
  -- an element that was in a table and is not handed out is there still
  have hstays : l.isLinked e = true → e ∉ c.handed reply → l'.isLinked e = true := by
    intro hlinked hout
    obtain ⟨t, r, hr, he⟩ := isLinked_iff.mp hlinked
    obtain ⟨hash, he⟩ := Roster.mem_elements_iff.mp he
    obtain ⟨-, hempty, -⟩ | ⟨r', hr', -, -, hentries⟩ := h.exists_roster hr
    · simp [hempty] at he
    · exact isLinked_iff.mpr ⟨t, r', hr', Roster.mem_elements_iff.mpr ⟨hash, hentries _ he hout⟩⟩
  have hreferences := h.references e
  have hzero' : l'.references e = 0 := by simp [Ledger.references, ha', hzero]
  rw [hzero', Nat.zero_add] at hreferences
  by_cases hreturned : c.returned.count e = 0
  · -- nobody referred to the element before either
    rw [hreturned] at hreferences
    have hout : e ∉ c.handed reply := List.count_eq_zero.mp (by omega)
    rcases h.exists_account_of ha' with ⟨rfl, rfl, -⟩ | ⟨a, ha, -⟩
    · simp [Call.handed] at hout
    · have hnone : l.references e = 0 := by omega
      simp only [Ledger.references, ha, Option.map_some, Option.getD_some] at hnone
      exact hstays (hkept e a ha hnone) hout
  · -- the reference that was put was not the last one, since the element was in a table
    cases h with
    | @put f destroyed l' hput =>
      have hf : f = e := by
        by_contra hf
        simp [Call.returned, hf] at hreturned
      subst hf
      obtain ⟨-, a, ha, -, ⟨-, -, -, haccount⟩ | ⟨hlast, -, haccount⟩⟩ := put_cases hput
      · rw [haccount, if_pos rfl] at ha'
        cases ha'
      · have hone : a.references = 1 := by
          simpa [Ledger.references, ha, Call.returned, Call.handed] using hreferences.symm
        refine hstays ?_ (by simp [Call.handed])
        by_contra hlinked
        exact hlast ⟨hone, by simpa using hlinked⟩
    | yields _ _ hnone _ => simp [hnone] at hreturned
    | _ => simp [Call.returned] at hreturned

end Ledger

theorem Store.Agrees.covered {s : Store V K} {l : Ledger V K} (hs : s.Agrees l) : l.Covered := by
  intro t r hr e he
  obtain ⟨hash, he⟩ := Roster.mem_elements_iff.mp he
  obtain ⟨x, hx, -⟩ := hs.listed t r hr e hash he
  obtain ⟨a, ha, -⟩ := hs.exists_account hx
  exact ⟨a, ha⟩

end HashIndex
