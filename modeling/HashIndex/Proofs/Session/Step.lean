import HashIndex.Proofs.Session.Sound

/-!
# Steps keep sessions sound

Beginning a step makes a few calls on the store, and leaves the references that come with the
answers in the custody of the session. It never faults, except that a table is not dropped while an
unfinished task works on it.

## Main definitions

* `Session.callsOf`: the calls that a step makes.
* `Session.Leads`: making calls and being sound afterwards.

## Main statements

* `Session.Sound.begin`: a sound session stays sound.
-/

namespace HashIndex.Script.Session

variable {K : Type}

def callsOf (s : Session K) : Step K → List (Call (Item K) K)
  | .table _ strategy capacity => [.createTable strategy capacity]
  | .create _ item _ => [.create item]
  | .hold name _ => (s.handles.find? name).toList.map .hold
  | .hash table name key =>
    match s.tables.find? table, s.handles.find? name with
    | some t, some e =>
      (s.store.heap.get? e).toList.map fun x => .hash t e (key.getD x.value.key)
    | _, _ => []
  | .unhash table name =>
    match s.tables.find? table, s.handles.find? name with
    | some t, some e => [.unhash t e]
    | _, _ => []
  | .lookup table key _ => (s.tables.find? table).toList.map fun t => .lookup t key
  | .remove table key =>
    match s.tables.find? table with
    | none => []
    | some t =>
      match s.store.lookup t key with
      | .ok (.ok e, _) => [.lookup t key, .unhash t e]
      | _ => [.lookup t key]
  | .survey table hold _ => (s.tables.find? table).toList.map fun t => .survey t hold
  | .chains table =>
    match s.tables.find? table with
    | none => []
    | some t => [.lengths t, .survey t fun _ _ => false]
  | _ => []

/-- A table was to be dropped that is in use, or calls were made, their answers are those that a
ledger gives, and the session is sound. -/
def Leads (store : Store (Item K) K) (l : Ledger (Item K) K) (calls : List (Call (Item K) K))
    (outcome : Except Fault (Session K)) : Prop :=
  outcome = .error .tableInUse ∨ ∃ s replies l', outcome = .ok s ∧
    l.callAll calls = some (replies, l') ∧ store.callAll calls = .ok (replies, s.store) ∧
    s.Sound l' []

variable {s s' : Session K} {l l' : Ledger (Item K) K} {inHand rest : List ElementId}
  {t : TableId} {e : ElementId} {r : Roster (Item K) K} {store : Store (Item K) K}
  {c : Call (Item K) K}

theorem Sound.leads (hs : s.Sound l []) : Leads s.store l [] (.ok s) :=
  .inr ⟨s, [], l, rfl, rfl, rfl, hs⟩

theorem Leads.cons {calls : List (Call (Item K) K)} {outcome : Except Fault (Session K)}
    {reply : Reply (Item K)} {store' : Store (Item K) K} (h : Leads store' l' calls outcome)
    (hcall : l.call c = some (reply, l')) (hstore : store.call c = .ok (reply, store')) :
    Leads store l (c :: calls) outcome := by
  rcases h with h | ⟨s, replies, l'', hok, hcalls, hstores, hs⟩
  · exact .inl h
  · refine .inr ⟨s, reply :: replies, l'', hok, ?_, ?_, hs⟩
    · simp only [Ledger.callAll, hcall, hcalls, Option.bind_eq_bind, Option.bind_some,
        Option.pure_def]
    · simp only [Store.callAll, hstore, hstores, Fault.ok_bind, Fault.pure_eq_ok]

/-! ## What a sound session has -/

theorem Sound.held (hs : s.Sound l inHand)
    (he : e ∈ s.handleList ∨ e ∈ s.pendingList ∨ e ∈ inHand) : ∃ a, l.held? e = some a := by
  have hcustody := hs.custody e
  have hpos : 0 < l.references e := by
    rcases he with he | he | he <;> have hcount := List.count_pos_iff.mpr he <;> omega
  unfold Ledger.references at hpos
  cases ha : l.account? e with
  | none => simp [ha] at hpos
  | some a =>
    rw [ha] at hpos
    exact ⟨a, Ledger.held?_eq_some_iff.mpr ⟨ha, hpos⟩⟩

theorem Sound.held_of_find? (hs : s.Sound l inHand) {name : String}
    (hfind : s.handles.find? name = some e) : ∃ a, l.held? e = some a :=
  hs.held (.inl (List.mem_append_left _ (Directory.mem_values_of_find? hfind)))

theorem Sound.exists_element (hs : s.Sound l inHand) {a : Account (Item K)}
    (ha : l.held? e = some a) : ∃ x, s.store.heap.get? e = some x :=
  (hs.agrees.exists_element (Ledger.held?_eq_some_iff.mp ha).1).imp fun _ h => h.1

theorem Sound.named_of_find? (hs : s.Sound l inHand) {name : String}
    (hfind : s.tables.find? name = some t) : t ∈ s.tables.values ∧ ∃ r, l.roster? t = some r :=
  ⟨Directory.mem_values_of_find? hfind, hs.named t (Directory.mem_values_of_find? hfind)⟩

theorem Sound.reply (hs : s.Sound l inHand) (answer : Answer K) : (s.reply answer).Sound l inHand :=
  hs.congr rfl rfl rfl rfl

theorem Sound.emit (hs : s.Sound l inHand) (event : Event K) : (s.emit event).Sound l inHand :=
  hs.congr rfl rfl rfl rfl

theorem Sound.push_answer (hs : s.Sound l inHand) (answer : Answer K) :
    (s.push (.answer answer)).Sound l inHand :=
  Sound.push_plain _ hs fun _ => rfl

theorem Sound.push_keep {entries : List (String × ElementId)}
    (hs : s.Sound l (entries.map Prod.snd ++ inHand)) : (s.push (.keep entries)).Sound l inHand :=
  Sound.push_plain _ (by simpa [Task.handles, Task.pending] using hs) fun _ => rfl

theorem Sound.push_drop (hs : s.Sound l (e :: inHand)) : (s.push (.drop e)).Sound l inHand :=
  Sound.push_plain _ hs fun _ => rfl

theorem Sound.push_release {elements : List ElementId} (hs : s.Sound l (elements ++ inHand)) :
    (s.push (.release elements)).Sound l inHand :=
  Sound.push_plain _ hs fun _ => rfl

/-- Who refers to a table that nobody works on any more may drop it. -/
theorem Sound.retire (hs : s.Sound l []) (hr : l.roster? t = some r)
    (hunnamed : t ∉ s.tables.values) : Leads s.store l [] (s.retire t) := by
  cases hany : s.tasks.any (Task.uses t) with
  | true => exact .inl (by simp only [Session.retire, hany, if_true]; rfl)
  | false =>
    have hs' : (s.push (.drain t (List.range r.capacity.size) 0)).Sound l [] := by
      refine Ready.push ⟨hs, ⟨r, hr, by simp⟩, ?_, ?_⟩
      · intro u huses
        obtain rfl : t = u := by simpa [Task.uses] using huses
        intro buckets n hmem
        rw [List.any_eq_false] at hany
        exact hany _ hmem (by simp [Task.uses])
      · rintro u buckets n heq
        obtain ⟨rfl, rfl, -⟩ := by simpa using heq
        refine ⟨⟨hunnamed, fun r' hr' entry _ => ?_⟩, hany⟩
        obtain rfl : r = r' := Option.some.inj (hr.symm.trans hr')
        exact List.mem_range.mpr (r.slot_lt _)
    simp only [Session.retire, hany, Bool.false_eq_true, if_false, hs.agrees.bucketRange hr,
      Fault.ok_bind, Fault.pure_eq_ok]
    exact hs'.leads

/-! ## Beginning a step -/

theorem Sound.adopt (hs : Sound { s with store := store.settle } l inHand) :
    (s.adopt store).Sound l inHand :=
  hs.congr rfl rfl rfl rfl

theorem act_eq {α : Type} {action : Store (Item K) K → Except Fault (α × Store (Item K) K)}
    (result : α) (store : Store (Item K) K) (h : action s.store = .ok (result, store)) :
    s.act action = .ok (result, s.adopt store) :=
  act_eq_ok_iff.mpr ⟨store, h, rfl⟩

theorem describe_eq {x : Element (Item K)} (hx : store.heap.get? e = some x) :
    describe store e = .ok ⟨x.value, x.count, x.isHashed⟩ := by
  simp only [describe, Heap.read_eq hx, Fault.ok_bind, Fault.pure_eq_ok]

theorem Sound.beginMalformed (hs : s.Sound l []) (complaint : Complaint) (needs : List Need) :
    Leads s.store l [] (.ok (s.beginMalformed complaint needs)) := by
  induction needs with
  | nil => exact (hs.reply _).leads
  | cons need needs ih =>
    cases need <;> unfold Session.beginMalformed <;> split <;>
      first | exact (hs.reply _).leads | exact ih

/-- What follows when a table is there that no name and no task refers to yet. -/
theorem Sound.insertTable (hs : s.Sound l []) (hr : l.roster? t = some r)
    (hnew : t ∉ s.tables.values) (hcalm : s.Calm t) (name : String) :
    Sound { s with tables := (s.tables.insert name t).2 } l [] ∧
      ∀ old ∈ (s.tables.insert name t).1, (∃ r, l.roster? old = some r) ∧
        old ∉ (s.tables.insert name t).2.values := by
  have hperm := s.tables.perm_insert name t
  have hnodup := hperm.nodup_iff.mpr (List.nodup_cons.mpr ⟨hnew, hs.distinct⟩)
  obtain ⟨-, hdistinct, hdisjoint⟩ := List.nodup_append.mp hnodup
  have hnamed : ∀ u ∈ t :: s.tables.values, (∃ r, l.roster? u = some r) ∧ s.Calm u := by
    intro u hu
    rcases List.mem_cons.mp hu with rfl | hu
    · exact ⟨⟨r, hr⟩, hcalm⟩
    · exact ⟨hs.named u hu, hs.calm_of_named hu⟩
  refine ⟨hs.renameTables (hs.tablesInOrder.insert name t) hdistinct ?_ ?_, fun old hold => ?_⟩
  · exact fun u hu => (hnamed u (hperm.subset (List.mem_append_right _ hu))).1
  · exact fun u hu => (hnamed u (hperm.subset (List.mem_append_right _ hu))).2
  · have hmem : old ∈ (s.tables.insert name t).1.toList := by simpa using hold
    exact ⟨(hnamed old (hperm.subset (List.mem_append_left _ hmem))).1,
      fun hu => hdisjoint old hmem old hu rfl⟩

/-- A table can be made, also under a name that is taken if that table is not in use. -/
theorem Sound.beginTable (hs : s.Sound l []) (name : String) (strategy : Strategy (Item K) K)
    (capacity : Capacity) :
    Leads s.store l [.createTable strategy capacity] (s.beginTable name strategy capacity) := by
  obtain ⟨hname, hagrees, -⟩ := hs.agrees.createTable strategy capacity
  obtain ⟨hnone, hroster⟩ := l.roster?_createTable strategy capacity
  have hcall : l.call (.createTable strategy capacity) =
    some (.made (l.createTable strategy capacity).1, (l.createTable strategy capacity).2) := rfl
  have hstore : s.store.call (.createTable strategy capacity) =
      .ok (.made (l.createTable strategy capacity).1,
        (s.store.createTable strategy capacity).2.settle) := by
    rw [Store.call, hname]
  have hr := (hroster _).trans (if_pos rfl)
  obtain ⟨table, htable, -⟩ := hagrees.exists_table hr
  have hs₁ := (hs.call [] hcall hstore (.refl _) (by simp) (by simp)).adopt
  have hnew : (l.createTable strategy capacity).1 ∉ s.tables.values := by
    intro hmem
    obtain ⟨r, hr⟩ := hs.named _ hmem
    rw [hnone] at hr
    cases hr
  have hcalm : s.Calm (l.createTable strategy capacity).1 := by
    intro buckets n hmem
    obtain ⟨r, hr, -⟩ := hs.fits _ hmem
    rw [hnone] at hr
    cases hr
  obtain ⟨hs₂, hold⟩ := hs₁.insertTable hr hnew hcalm name
  unfold Session.beginTable
  rw [act_eq ((l.createTable strategy capacity).1, ⟨table.buckets.size, table.entries⟩)
    (s.store.createTable strategy capacity).2, Fault.ok_bind]
  · refine Leads.cons ?_ hcall hstore
    dsimp only
    cases hreplaced : ((s.adopt (s.store.createTable strategy capacity).2).tables.insert name
      (l.createTable strategy capacity).1).1 with
    | none =>
      exact (hs₂.push_answer _).leads
    | some old =>
      obtain ⟨⟨r', hr'⟩, hunnamed⟩ := hold old hreplaced
      exact (hs₂.push_answer _).retire hr' hunnamed
  · simp only [hname, statOf, Store.table_eq htable, Fault.ok_bind, Fault.pure_eq_ok]

theorem Sound.beginCreate (hs : s.Sound l []) (name : String) (item : Item K)
    (hook : List (Step K)) : Leads s.store l [.create item] (s.beginCreate name item hook) := by
  obtain ⟨hname, hagrees⟩ := hs.agrees.create item
  have hcall : l.call (.create item) = some (.created (l.create item).1, (l.create item).2) := rfl
  have hstore : s.store.call (.create item) =
      .ok (.created (l.create item).1, (s.store.create item).2.settle) := by
    rw [Store.call, hname]
  have ha := (l.account?_create item (l.create item).1).trans (if_pos rfl)
  obtain ⟨x, hx, -⟩ := hagrees.exists_element ha
  have hs₁ := (hs.call [] hcall hstore (.refl _) (by simp) (by simp)).adopt
  unfold Session.beginCreate
  rw [act_eq ((l.create item).1, ⟨x.value, x.count, x.isHashed⟩) (s.store.create item).2,
    Fault.ok_bind]
  · have hs₂ : ((s.adopt (s.store.create item).2).attach (l.create item).1 hook).Sound
        (l.create item).2 [(l.create item).1] := hs₁.congr rfl rfl rfl rfl
    exact (Sound.push_keep (hs₂.push_answer _)).leads.cons hcall hstore
  · simp only [hname, describe_eq hx, Fault.ok_bind, Fault.pure_eq_ok]

theorem Sound.beginHold (hs : s.Sound l []) (name target : String) :
    Leads s.store l (s.callsOf (.hold name target)) (s.beginHold name target) := by
  unfold Session.beginHold
  simp only [Session.withHandle, callsOf]
  cases hfind : s.handles.find? name with
  | none => exact (hs.reply _).leads
  | some e =>
    obtain ⟨a, ha⟩ := hs.held_of_find? hfind
    obtain ⟨reply, l', store, hcall, hstore, hs₁⟩ :=
      hs.exists_call (c := .hold e) [] ⟨a, ha⟩ (.refl _) (by simp) (by simp)
    have hok := hstore
    simp only [Store.call, Fault.bind_eq_ok_iff, Fault.pure_eq_ok_iff, Prod.mk.injEq] at hok
    obtain ⟨store, hok, rfl, rfl⟩ := hok
    obtain ⟨b, hb⟩ := hs₁.held (.inr (.inr (List.mem_singleton_self e)))
    obtain ⟨x, hx⟩ : ∃ x, store.heap.get? e = some x := hs₁.exists_element hb
    dsimp only
    rw [act_eq ⟨x.value, x.count, x.isHashed⟩ store, Fault.ok_bind]
    · exact (Sound.push_keep (hs₁.adopt.push_answer _)).leads.cons hcall hstore
    · simp only [hok, describe_eq hx, Fault.ok_bind, Fault.pure_eq_ok]

theorem Sound.beginHash (hs : s.Sound l []) (table name : String) (key : Option K) :
    Leads s.store l (s.callsOf (.hash table name key)) (s.beginHash table name key) := by
  unfold Session.beginHash
  simp only [Session.withTable, Session.withHandle, callsOf]
  cases htable : s.tables.find? table with
  | none => exact (hs.reply _).leads
  | some t =>
    cases hfind : s.handles.find? name with
    | none => exact (hs.reply _).leads
    | some e =>
      obtain ⟨a, ha⟩ := hs.held_of_find? hfind
      obtain ⟨x, hx⟩ := hs.exists_element ha
      obtain ⟨hnamed, hr⟩ := hs.named_of_find? htable
      obtain ⟨reply, l', store, hcall, hstore, hs₁⟩ :=
        hs.exists_call (c := .hash t e (key.getD x.value.key)) [] ⟨hr, a, ha⟩ (.refl _) (by simp)
          (fun u f k h => by
            obtain ⟨rfl, -, -⟩ := by simpa using h
            exact hs.calm_of_named hnamed)
      have hok := hstore
      simp only [Store.call, Fault.bind_eq_ok_iff, Fault.pure_eq_ok_iff, Prod.mk.injEq,
        Prod.exists] at hok
      obtain ⟨result, store, hok, rfl, rfl⟩ := hok
      simp only [hx, Option.toList_some, List.map_cons, List.map_nil]
      rw [act_eq result store, Fault.ok_bind]
      · exact (hs₁.adopt.reply _).leads.cons hcall hstore
      · simp only [Heap.read_eq hx, hok, Fault.ok_bind]

theorem Sound.beginUnhash (hs : s.Sound l []) (table name : String) :
    Leads s.store l (s.callsOf (.unhash table name)) (s.beginUnhash table name) := by
  unfold Session.beginUnhash
  simp only [Session.withTable, Session.withHandle, callsOf]
  cases htable : s.tables.find? table with
  | none => exact (hs.reply _).leads
  | some t =>
    cases hfind : s.handles.find? name with
    | none => exact (hs.reply _).leads
    | some e =>
      obtain ⟨a, ha⟩ := hs.held_of_find? hfind
      obtain ⟨-, hr⟩ := hs.named_of_find? htable
      obtain ⟨reply, l', store, hcall, hstore, hs₁⟩ :=
        hs.exists_call (c := .unhash t e) [] ⟨hr, a, ha⟩ (.refl _) (by simp) (by simp)
      have hok := hstore
      simp only [Store.call, Fault.bind_eq_ok_iff, Fault.pure_eq_ok_iff, Prod.mk.injEq,
        Prod.exists] at hok
      obtain ⟨result, store, hok, rfl, rfl⟩ := hok
      dsimp only
      rw [act_eq result store hok, Fault.ok_bind]
      cases result with
      | error refusal => exact (hs₁.adopt.reply _).leads.cons hcall hstore
      | ok _ => exact (Sound.push_release (hs₁.adopt.push_answer _)).leads.cons hcall hstore

/-- The reference that a lookup finds is stored under a name or dropped. -/
theorem Sound.beginLookup (hs : s.Sound l []) (table : String) (key : K)
    (target : Option String) :
    Leads s.store l (s.callsOf (.lookup table key target)) (s.beginLookup table key target) := by
  unfold Session.beginLookup
  simp only [Session.withTable, callsOf]
  cases htable : s.tables.find? table with
  | none => exact (hs.reply _).leads
  | some t =>
    obtain ⟨-, hr⟩ := hs.named_of_find? htable
    obtain ⟨reply, l', store, hcall, hstore, hs₁⟩ :=
      hs.exists_call (c := .lookup t key) [] hr (.refl _) (by simp) (by simp)
    have hok := hstore
    simp only [Store.call, Fault.bind_eq_ok_iff, Fault.pure_eq_ok_iff, Prod.mk.injEq,
      Prod.exists] at hok
    obtain ⟨result, store, hok, rfl, rfl⟩ := hok
    dsimp only
    rw [act_eq result store hok, Fault.ok_bind]
    cases result with
    | error refusal => exact (hs₁.adopt.reply _).leads.cons hcall hstore
    | ok e =>
      obtain ⟨a, ha⟩ := hs₁.held (.inr (.inr (List.mem_singleton_self e)))
      obtain ⟨x, hx⟩ := hs₁.adopt.exists_element ha
      dsimp only
      rw [describe_eq hx, Fault.ok_bind]
      cases target with
      | none => exact (Sound.push_drop (hs₁.adopt.push_answer _)).leads.cons hcall hstore
      | some target => exact (Sound.push_keep (hs₁.adopt.push_answer _)).leads.cons hcall hstore

/-- What is found is taken out, and both references to it are put. -/
theorem Sound.beginRemove (hs : s.Sound l []) (table : String) (key : K) :
    Leads s.store l (s.callsOf (.remove table key)) (s.beginRemove table key) := by
  unfold Session.beginRemove
  simp only [Session.withTable, callsOf]
  cases htable : s.tables.find? table with
  | none => exact (hs.reply _).leads
  | some t =>
    obtain ⟨hnamed, hr⟩ := hs.named_of_find? htable
    obtain ⟨reply, l', store, hcall, hstore, hs₁⟩ :=
      hs.exists_call (c := .lookup t key) [] hr (.refl _) (by simp) (by simp)
    have hok := hstore
    simp only [Store.call, Fault.bind_eq_ok_iff, Fault.pure_eq_ok_iff, Prod.mk.injEq,
      Prod.exists] at hok
    obtain ⟨result, store, hok, rfl, rfl⟩ := hok
    simp only [hok]
    rw [act_eq result store hok, Fault.ok_bind]
    cases result with
    | error refusal => exact (hs₁.adopt.reply _).leads.cons hcall hstore
    | ok e =>
      obtain ⟨a, ha⟩ := hs₁.held (.inr (.inr (List.mem_singleton_self e)))
      obtain ⟨reply, l'', store', hcall', hstore', hs₂⟩ :=
        hs₁.adopt.exists_call (c := .unhash t e) [e] ⟨hs₁.named t hnamed, a, ha⟩ (.refl _)
          (by simp) (by simp)
      have hok' := hstore'
      simp only [Store.call, Fault.bind_eq_ok_iff, Fault.pure_eq_ok_iff, Prod.mk.injEq,
        Prod.exists] at hok'
      obtain ⟨result, store', hok', rfl, rfl⟩ := hok'
      dsimp only
      rw [act_eq result store' hok', Fault.ok_bind]
      refine Leads.cons ?_ hcall hstore
      cases result with
      | error refusal =>
        exact (Sound.push_drop (hs₂.adopt.push_answer _)).leads.cons hcall' hstore'
      | ok _ =>
        have hs₃ : ((s.adopt store).adopt store').Sound l'' (e :: [e]) := hs₂.adopt
        exact (Sound.push_release (Sound.push_plain (.put e) hs₃ fun _ => rfl)).leads.cons
          hcall' hstore'

theorem Sound.beginTraverse (hs : s.Sound l []) (table : String) (hold unhash : Selection K)
    (target : String) : Leads s.store l [] (s.beginTraverse table hold unhash target) := by
  unfold Session.beginTraverse
  simp only [Session.withTable]
  cases htable : s.tables.find? table with
  | none => exact (hs.reply _).leads
  | some t =>
    obtain ⟨hnamed, r, hr⟩ := hs.named_of_find? htable
    dsimp only
    rw [hs.agrees.bucketRange hr, Fault.ok_bind]
    have hready :
        s.Ready l (.traverse t (List.range r.capacity.size) 0 [] hold unhash target) [] := by
      refine ⟨hs, ⟨r, hr, by simp⟩, fun u huses => ?_, by simp⟩
      obtain rfl : t = u := by simpa [Task.uses] using huses
      exact hs.calm_of_named hnamed
    exact hready.push.leads

theorem foldl_emit {α : Type} (event : α → Event K) (items : List α) (s : Session K) :
    items.foldl (fun s item => s.emit (event item)) s =
      { s with events := (items.map event).reverse ++ s.events } := by
  induction items generalizing s with
  | nil => rfl
  | cons item items ih =>
    rw [List.foldl_cons, ih]
    simp [emit]

theorem map_keptBy (target : String) (visits : List (Visit (Item K))) :
    (keptBy target visits).map Prod.snd = Ledger.heldBy visits := by
  simp [keptBy, Ledger.heldBy]

theorem Sound.beginSurvey (hs : s.Sound l []) (table : String) (hold : Selection K)
    (target : String) :
    Leads s.store l (s.callsOf (.survey table hold target)) (s.beginSurvey table hold target) := by
  unfold Session.beginSurvey
  simp only [Session.withTable, callsOf]
  cases htable : s.tables.find? table with
  | none => exact (hs.reply _).leads
  | some t =>
    obtain ⟨-, hr⟩ := hs.named_of_find? htable
    obtain ⟨reply, l', store, hcall, hstore, hs₁⟩ :=
      hs.exists_call (c := .survey t hold) [] hr (.refl _) (by simp) (by simp)
    have hok := hstore
    simp only [Store.call, Fault.bind_eq_ok_iff, Fault.pure_eq_ok_iff, Prod.mk.injEq,
      Prod.exists] at hok
    obtain ⟨buckets, hbuckets, visits, store, hok, rfl, rfl⟩ := hok
    dsimp only
    rw [hbuckets, Fault.ok_bind, act_eq visits store hok, Fault.ok_bind,
      foldl_emit fun visit : Visit (Item K) => .read visit.value visit.hash]
    refine (Sound.push_keep (Sound.push_answer ?_ _)).leads.cons hcall hstore
    rw [map_keptBy]
    exact hs₁.congr rfl rfl rfl rfl

theorem Sound.beginChains (hs : s.Sound l []) (table : String) :
    Leads s.store l (s.callsOf (.chains table)) (s.beginChains table) := by
  unfold Session.beginChains
  simp only [Session.withTable, callsOf]
  cases htable : s.tables.find? table with
  | none => exact (hs.reply _).leads
  | some t =>
    obtain ⟨hnamed, hr⟩ := hs.named_of_find? htable
    obtain ⟨reply, l', store, hcall, hstore, hs₁⟩ :=
      hs.exists_call (c := .lengths t) [] hr (.refl _) (by simp) (by simp)
    have hok := hstore
    simp only [Store.call, Fault.bind_eq_ok_iff, Fault.pure_eq_ok_iff, Prod.mk.injEq,
      Prod.exists] at hok
    obtain ⟨buckets, hbuckets, lengths, store, hok, rfl, rfl⟩ := hok
    obtain ⟨reply, l'', store', hcall', hstore', hs₂⟩ :=
      hs₁.adopt.exists_call (c := .survey t fun _ _ => false) [] (hs₁.named t hnamed) (.refl _)
        (by simp) (by simp)
    have hok' := hstore'
    simp only [Store.call, Fault.bind_eq_ok_iff, Fault.pure_eq_ok_iff, Prod.mk.injEq,
      Prod.exists] at hok'
    obtain ⟨buckets', hbuckets', visits, store', hok', rfl, rfl⟩ := hok'
    have hsame : buckets' = buckets := by
      obtain ⟨r, hr⟩ := hr
      have hr' := Ledger.eq_of_lengths hcall ▸ hr
      have hrange := (hs.agrees.bucketRange hr).symm.trans hbuckets
      have hrange' := (hs₁.adopt.agrees.bucketRange hr').symm.trans hbuckets'
      exact Except.ok.inj (hrange'.symm.trans hrange)
    subst hsame
    have hnone : (Call.survey t fun _ _ => false).handed (.surveyed visits) = [] :=
      Ledger.handed_of_survey_none hcall'
    rw [hnone] at hs₂
    dsimp only
    rw [hbuckets, Fault.ok_bind, act_eq lengths store hok, Fault.ok_bind,
      act_eq visits store' hok', Fault.ok_bind]
    refine Leads.cons ?_ hcall hstore
    exact (hs₂.adopt.reply _).leads.cons hcall' hstore'

theorem Sound.removeTable (hs : s.Sound l inHand) {tables : Directory TableId}
    (hperm : s.tables.values.Perm (t :: tables.values)) (hinOrder : tables.InOrder) :
    Sound { s with tables := tables } l inHand ∧ t ∉ tables.values ∧
      ∃ r, l.roster? t = some r := by
  obtain ⟨hnotin, hdistinct⟩ := List.nodup_cons.mp (hperm.nodup_iff.mp hs.distinct)
  have hmem : ∀ u ∈ t :: tables.values, u ∈ s.tables.values := fun u hu => hperm.symm.subset hu
  refine ⟨hs.renameTables hinOrder hdistinct ?_ ?_, hnotin, hs.named t (hmem t (by simp))⟩
  · exact fun u hu => hs.named u (hmem u (List.mem_cons_of_mem _ hu))
  · exact fun u hu => hs.calm_of_named (hmem u (List.mem_cons_of_mem _ hu))

theorem Sound.beginDropTable (hs : s.Sound l []) (name : String) :
    Leads s.store l [] (s.beginDropTable name) := by
  unfold Session.beginDropTable
  cases htake : s.tables.take? name with
  | none => exact (hs.reply _).leads
  | some taken =>
    obtain ⟨t, tables⟩ := taken
    obtain ⟨hperm, hinOrder⟩ := hs.tablesInOrder.perm_of_take? htake
    obtain ⟨hs₁, hunnamed, r, hr⟩ := hs.removeTable hperm hinOrder
    exact (hs₁.push_answer _).retire hr hunnamed

/-- What has a name comes into the hands of whoever takes the name away. -/
theorem Sound.takeHandle (hs : s.Sound l []) (name : String)
    {next : ElementId → Session K → Except Fault (Session K)}
    (hnext : ∀ e handles, Sound { s with handles := handles } l [e] →
      Leads s.store l [] (next e { s with handles := handles })) :
    Leads s.store l [] (s.takeHandle name next) := by
  unfold Session.takeHandle
  cases htake : s.handles.take? name with
  | none => exact (hs.reply _).leads
  | some taken =>
    obtain ⟨e, handles⟩ := taken
    obtain ⟨hperm, hinOrder⟩ := hs.inOrder.perm_of_take? htake
    refine hnext e handles (hs.rename ?_ hinOrder)
    rw [List.append_nil]
    exact hperm.trans (List.perm_append_singleton e _).symm

theorem Sound.withHandle (hs : s.Sound l []) (name : String)
    {next : ElementId → Except Fault (Session K)}
    (hnext : ∀ e x, s.store.heap.get? e = some x → Leads s.store l [] (next e)) :
    Leads s.store l [] (s.withHandle name next) := by
  unfold Session.withHandle
  cases hfind : s.handles.find? name with
  | none => exact (hs.reply _).leads
  | some e =>
    obtain ⟨a, ha⟩ := hs.held_of_find? hfind
    obtain ⟨x, hx⟩ := hs.exists_element ha
    exact hnext e x hx

theorem Sound.withTable (hs : s.Sound l []) (name : String)
    {next : TableId → Except Fault (Session K)}
    (hnext : ∀ t ∈ s.tables.values, ∀ table, s.store.table? t = some table →
      Leads s.store l [] (next t)) :
    Leads s.store l [] (s.withTable name next) := by
  unfold Session.withTable
  cases hfind : s.tables.find? name with
  | none => exact (hs.reply _).leads
  | some t =>
    obtain ⟨hnamed, r, hr⟩ := hs.named_of_find? hfind
    obtain ⟨table, htable, -⟩ := hs.agrees.exists_table hr
    exact hnext t hnamed table htable

theorem Sound.beginFill (hs : s.Sound l []) (table : String) (items : List (Item K)) (cut : Bool)
    (hook : List (Step K)) :
    Leads s.store l [] (s.begin (.fill table items cut hook)) := by
  refine hs.withTable table fun t hnamed _ _ => ?_
  have hready : s.Ready l (.fill t items cut hook []) [] := by
    refine ⟨hs, hs.named t hnamed, fun u huses => ?_, by simp⟩
    obtain rfl : t = u := by simpa [Task.uses] using huses
    exact hs.calm_of_named hnamed
  exact hready.push.leads

/-- A step that is begun leads to calls and leaves the session sound. -/
theorem Sound.begin (hs : s.Sound l []) (step : Step K) :
    Leads s.store l (s.callsOf step) (s.begin step) := by
  cases step with
  | malformed needs complaint => exact hs.beginMalformed complaint needs
  | table name strategy capacity => exact hs.beginTable name strategy capacity
  | create name item hook => exact hs.beginCreate name item hook
  | hold name target => exact hs.beginHold name target
  | put name =>
    simp only [Session.begin]
    refine hs.takeHandle name fun e handles hs' => ?_
    exact (Sound.push_plain (.put e) hs' fun _ => rfl).leads
  | drop name =>
    simp only [Session.begin]
    refine hs.takeHandle name fun e handles hs' => ?_
    exact (Sound.push_drop (hs'.push_answer _)).leads
  | info name =>
    refine hs.withHandle name fun e x hx => ?_
    rw [describe_eq hx, Fault.ok_bind]
    exact (hs.reply _).leads
  | same name other =>
    exact hs.withHandle name fun e _ _ => hs.withHandle other fun f _ _ => (hs.reply _).leads
  | hash table name key => exact hs.beginHash table name key
  | unhash table name => exact hs.beginUnhash table name
  | lookup table key target => exact hs.beginLookup table key target
  | remove table key => exact hs.beginRemove table key
  | fill table items cut hook => exact hs.beginFill table items cut hook
  | traverse table hold unhash target => exact hs.beginTraverse table hold unhash target
  | survey table hold target => exact hs.beginSurvey table hold target
  | chains table => exact hs.beginChains table
  | stat name =>
    refine hs.withTable name fun t _ table htable => ?_
    rw [statOf, Store.table_eq htable, Fault.ok_bind]
    exact (hs.reply _).leads
  | showHandle name long =>
    refine hs.withHandle name fun e x hx => ?_
    rw [showElement, Heap.read_eq hx, Fault.ok_bind]
    exact (hs.reply _).leads
  | showTable name long =>
    refine hs.withTable name fun t _ table htable => ?_
    rw [Store.table_eq htable, Fault.ok_bind]
    exact (hs.reply _).leads
  | dropTable name => exact hs.beginDropTable name

end HashIndex.Script.Session
