import HashIndex.Proofs.Session.Faults

/-!
# Traversals from end to end

A traversal works on the buckets of its table in ascending order. The elements that are in a bucket
when it is its turn are visited, and nothing else happens meanwhile; then the references to those
that were taken out are put, and hooks may do anything but drop the table. So what hooks link into a
bucket is visited if the turn of the bucket is still to come, and not otherwise.

## Main definitions

* `Session.Traverses`: the rest of a traversal.

## Main statements

* `Session.Above.exists_traverses`: a task that is to visit buckets does so in their order.
* `Session.Reachable.traverses`: a traversal that is begun comes to its end and has visited all
  buckets, unless a hook drops a table that is in use.
-/

namespace HashIndex.Script.Session

variable {K : Type} {s s' : Session K} {t : TableId} {base : List (Task K)} {i number : Nat}
  {buckets : List Nat} {kept : List (String × ElementId)} {hold unhash : Selection K}
  {target : String} {calls : List (Call (Item K) K)}

/-- The rest of a traversal, while the tasks `base` wait: the `buckets` are still to be visited,
`number` elements have been, and `kept` are the references held so far, latest first. Before a
bucket is visited anything may happen, and so it may when references are put. -/
inductive Traverses (t : TableId) (hold unhash : Selection K) (target : String)
    (base : List (Task K)) :
    List Nat → Nat → List (String × ElementId) → Session K → Session K → Prop
  | nil {number : Nat} {kept : List (String × ElementId)} {s s₁ : Session K}
    (hbefore : Above (.traverse t [] number kept hold unhash target :: base) s s₁)
    (htasks : s₁.tasks = .traverse t [] number kept hold unhash target :: base) :
    Traverses t hold unhash target base [] number kept s
      { s₁ with tasks := .keep kept.reverse :: .answer (.count number) :: base }
  | cons {i : Nat} {buckets : List Nat} {number : Nat} {kept : List (String × ElementId)}
    {visits : List (Visit (Item K))} {store : Store (Item K) K} {waiting : Task K}
    {s s₁ s₂ s₃ s₄ : Session K}
    (hbefore : Above (.traverse t (i :: buckets) number kept hold unhash target :: base) s s₁)
    (htasks : s₁.tasks = .traverse t (i :: buckets) number kept hold unhash target :: base)
    (hwalk : s₁.store.Walks t i number (fun n item => ⟨hold n item, unhash n item⟩) visits store)
    (hwaiting : waiting = .traverse t buckets (number + visits.length)
      ((keptBy target visits).reverse ++ kept) hold unhash target)
    (hvisited : s₂ = { s₁ with
      store := store
      tasks := .release (Ledger.takenOut visits) :: waiting :: base
      events := (visits.map fun v => .visited v.value v.hash).reverse ++ s₁.events })
    (hreleases : Releases (waiting :: base) (Ledger.takenOut visits) s₂ s₃)
    (hrest : Traverses t hold unhash target base buckets (number + visits.length)
      ((keptBy target visits).reverse ++ kept) s₃ s₄) :
    Traverses t hold unhash target base (i :: buckets) number kept s s₄

/-- The rest of a traversal is done before anything below it. -/
theorem Above.exists_traverses (habove : Above base s s') (h : Reachable calls s)
    (hwaits : .traverse t buckets number kept hold unhash target :: base <:+ s.tasks)
    (hdone : s'.tasks = base) :
    ∃ s₁, Traverses t hold unhash target base buckets number kept s s₁ ∧ Above base s₁ s' := by
  induction buckets generalizing s number kept calls with
  | nil =>
    obtain ⟨s₁, s₂, hbefore, htasks, hperform, hrest⟩ := habove.exists_resume h hwaits hdone
    obtain rfl := Except.ok.inj hperform
    exact ⟨_, .nil hbefore htasks, hrest⟩
  | cons i buckets ih =>
    obtain ⟨s₁, s₂, hbefore, htasks, hperform, hrest⟩ := habove.exists_resume h hwaits hdone
    obtain ⟨calls₁, h₁⟩ := hbefore.reachable h
    obtain ⟨visits, store, -, hwalk, hok⟩ := h₁.walk htasks
    obtain hs₂ := Except.ok.inj (hperform.symm.trans hok)
    have h₂ := h₁.perform htasks hperform
    obtain ⟨s₃, hreleases, hdone₃, hbetween, hrest₃⟩ :=
      hrest.exists_releases_above h₂ (congrArg Session.tasks hs₂) hdone
    obtain ⟨calls₃, h₃⟩ := hbetween.reachable h₂
    have hwaits₃ : .traverse t buckets (number + visits.length)
        ((keptBy target visits).reverse ++ kept) hold unhash target :: base <:+ s₃.tasks :=
      hdone₃ ▸ List.suffix_refl _
    obtain ⟨s₄, htraverses, hafter⟩ := ih hrest₃ h₃ hwaits₃
    exact ⟨s₄, .cons hbefore htasks hwalk rfl hs₂ hreleases htraverses, hafter⟩

/-- A traversal that is begun comes to an end, whatever has been done meanwhile, and has then
visited the buckets in ascending order, each one once. Only a hook that drops a table that is in use
can keep it from doing so. -/
theorem Reachable.traverses (h : Reachable calls s) {name : String}
    (hfind : s.tables.find? name = some t) (hold unhash : Selection K) (target : String) :
    ∃ table s₀, s.store.table? t = some table ∧
      s.begin (.traverse name hold unhash target) = .ok s₀ ∧
      s₀ = s.push (.traverse t (List.range table.buckets.size) 0 [] hold unhash target) ∧
      (∀ s₁, Above s.tasks s₀ s₁ →
        (∃ s₂ s',
          Traverses t hold unhash target s.tasks (List.range table.buckets.size) 0 [] s₀ s₂ ∧
            Above s.tasks s₂ s' ∧ Advances s.tasks s₁ s' ∧ s'.tasks = s.tasks) ∨
        ∃ s', Advances s.tasks s₁ s' ∧ s'.Conflict) ∧
      ∀ s', Above s.tasks s₀ s' → s'.tasks = s.tasks →
        ∃ s₂, Traverses t hold unhash target s.tasks (List.range table.buckets.size) 0 [] s₀ s₂ ∧
          Above s.tasks s₂ s' := by
  obtain ⟨-, l, -, -, hs⟩ := h.sound
  obtain ⟨-, r, hr⟩ := hs.named_of_find? hfind
  obtain ⟨table, ht, -⟩ := hs.agrees.exists_table hr
  have hbegin := begin_traverse hfind ht hold unhash target
  have h₀ := h.begin _ hbegin
  have hdone : ∀ s', Above s.tasks (s.push _) s' → s'.tasks = s.tasks → _ := fun s' habove hdone =>
    habove.exists_traverses h₀ (List.suffix_refl _) hdone
  refine ⟨table, _, ht, hbegin, rfl, fun s₁ habove => ?_, hdone⟩
  refine (habove.ends_or_conflict h₀ (List.suffix_cons _ _)).imp_left ?_
  rintro ⟨s', hadvances, habove', htasks⟩
  obtain ⟨s₂, htraverses, hrest⟩ := hdone s' habove' htasks
  exact ⟨s₂, s', htraverses, hrest, hadvances, htasks⟩

def others : Selection Nat := fun _ item => item.key ≠ 7

/-- What is to be seen of a traversal that takes the other items out of the first table of the
script that moves elements about. -/
def movingEvents : List (Event Nat) :=
  [.visited ⟨"c", 71, 0⟩ 71, .visited ⟨"b", 39, 0⟩ 39, .visited ⟨"a", 7, 0⟩ 7, .freed "t" "c",
    .noted (.selected 39 31 7), .hooked "c" .done, .hooked "c" (.info ⟨⟨"d", 40, 0⟩, 1, false⟩),
    .noted (.selected 40 31 8), .hooked "c" .done, .hooked "c" .nothing,
    .noted (.selected 40 31 8), .noted (.selected 40 31 8), .freed "u" "d",
    .hooked "d" (.info ⟨⟨"e", 9, 0⟩, 1, false⟩), .noted (.selected 9 31 9), .hooked "d" .done,
    .dropped "d", .hooked "c" (.flag true), .dropped "c", .visited ⟨"e", 9, 0⟩ 9]

/-- Two of three elements of a bucket are taken out. The first one is destroyed, and its hook links
the second one into another table. What comes into a later bucket meanwhile is visited too. -/
theorem Reachable.traverses_of_moving :
    ∃ (calls : List (Call (Item Nat) Nat)) (s s₀ s₂ s' : Session Nat)
      (table : Table (Item Nat) Nat), Reachable calls s ∧ s.tables.find? "t" = some 0 ∧
      s.tasks = [] ∧ s.store.table? 0 = some table ∧
      s.begin (.traverse "t" (fun _ _ => false) others "") = .ok s₀ ∧
      Traverses 0 (fun _ _ => false) others "" [] (List.range table.buckets.size) 0 [] s₀ s₂ ∧
      Above [] s₂ s' ∧ Advances [] s₀ s' ∧ s'.tasks = [] ∧ s'.answer = some (.count 4) ∧
      s'.events.reverse = movingEvents := by
  obtain ⟨calls, -, s, s', h, -, htasks, hnext, hfind, hdone, hanswer, hevents⟩ :=
    exists_reachable_of_play 6 movingScript
      (fun s => s.begin (.traverse "t" (fun _ _ => false) others "") >>= advance 7)
      (fun s s' => s.tables.find? "t" = some 0 ∧ s'.tasks = [] ∧ s'.answer = some (.count 4) ∧
        s'.events.reverse = movingEvents) (by decide +kernel)
  obtain ⟨s₀, hbegin, hadvance⟩ := Fault.bind_eq_ok_iff.mp hnext
  have hadvances := advances_of_advance hadvance
  obtain ⟨table, s₀, ht, hbegin₀, -, hends, -⟩ :=
    Reachable.traverses h hfind (fun _ _ => false) others ""
  obtain rfl := Except.ok.inj (hbegin₀.symm.trans hbegin)
  rw [htasks] at hends
  have h₀ := h.begin _ hbegin
  obtain ⟨s₂, s₃, htraverses, hrest, hadvances₃, hdone₃⟩ | ⟨s₃, hadvances₃, hconflict⟩ :=
    hends s₀ .refl
  · obtain rfl := hadvances₃.eq_of_done hdone₃ hadvances hdone
    exact ⟨calls, s, s₀, s₂, s₃, table, h, hfind, htasks, ht, hbegin, htraverses, hrest,
      hadvances, hdone, hanswer, hevents⟩
  · exact absurd hconflict (h₀.not_conflict_of_done hadvances hdone hadvances₃)

end HashIndex.Script.Session
