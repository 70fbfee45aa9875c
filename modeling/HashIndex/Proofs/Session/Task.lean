import HashIndex.Proofs.Session.Step

/-!
# Tasks keep sessions sound

A bit of a task is done as a step is begun: it makes a few calls on the store, and the references
that come with the answers go to the tasks that are left to be done. The element of a put reference
may have a hook, which becomes a task of its own.

## Main definitions

* `Session.callsOfTask`: the calls that a bit of a task makes.

## Main statements

* `Session.Sound.perform`: a sound session stays sound.
-/

namespace HashIndex.Script.Session

variable {K : Type}

def callsOfTask (s : Session K) : Task K → List (Call (Item K) K)
  | .hook _ steps => if s.answer.isSome then [] else steps.head?.toList.flatMap s.callsOf
  | .release elements => elements.head?.toList.map .put
  | .drop e | .put e => [.put e]
  | .fill t (item :: _) _ _ _ => [.create item, .hash t s.store.heap.size item.key]
  | .traverse t (bucket :: _) visited _ hold unhash _ =>
    [.walk t bucket visited fun number item => ⟨hold number item, unhash number item⟩]
  | .drain t [] _ => [.freeTable t]
  | .drain t (bucket :: _) _ => [.drain t bucket]
  | _ => []

variable {s : Session K} {l l' : Ledger (Item K) K} {inHand rest : List ElementId}
  {t : TableId} {e : ElementId} {store : Store (Item K) K}

theorem callsOf_push (s : Session K) (task : Task K) (step : Step K) :
    (s.push task).callsOf step = s.callsOf step := by
  cases step <;> rfl

theorem Sound.bury (hs : s.Sound l []) (e : ElementId) (destroyed : Option (Element (Item K))) :
    Leads s.store l [] (.ok (s.bury e destroyed)) := by
  unfold Session.bury
  cases destroyed with
  | none => exact hs.leads
  | some x =>
    have hs' : Sound { s with hooks := withoutHook e s.hooks } l [] := hs.congr rfl rfl rfl rfl
    dsimp only
    cases x.release with
    | drop => exact (hs'.emit _).leads
    | announce strategy => exact (Sound.push_plain (.hook _ _) (hs'.emit _) fun _ => rfl).leads

/-- Whoever has a reference can put it. -/
theorem Sound.act_put (hs : s.Sound l (e :: rest)) :
    ∃ reply l' destroyed store, l.call (.put e) = some (reply, l') ∧
      s.store.call (.put e) = .ok (reply, store.settle) ∧
      s.act (fun store => store.put e) = .ok (destroyed, s.adopt store) ∧
      (s.adopt store).Sound l' rest := by
  obtain ⟨a, ha⟩ := hs.held (.inr (.inr List.mem_cons_self))
  obtain ⟨reply, l', store, hcall, hstore, hs₁⟩ :=
    hs.exists_call (c := .put e) rest ⟨a, ha⟩ (.refl _) (by simp) (by simp)
  have hok := hstore
  simp only [Store.call, Fault.bind_eq_ok_iff, Fault.pure_eq_ok_iff, Prod.mk.injEq,
    Prod.exists] at hok
  obtain ⟨destroyed, store, hok, rfl, rfl⟩ := hok
  exact ⟨_, l', destroyed, store, hcall, hstore, act_eq destroyed store hok, hs₁.adopt⟩

theorem Sound.performHook (hs : s.Sound l []) (label : String) (steps : List (Step K)) :
    Leads s.store l (s.callsOfTask (.hook label steps)) (s.performHook label steps) := by
  unfold Session.performHook
  cases hanswer : s.answer with
  | some answer =>
    simp only [callsOfTask, hanswer, Option.isSome_some, if_true]
    refine (Sound.push_plain (.hook label steps) ?_ fun _ => rfl).leads
    exact hs.congr rfl rfl rfl rfl
  | none =>
    simp only [callsOfTask, hanswer, Option.isSome_none, Bool.false_eq_true, if_false]
    cases steps with
    | nil => exact (hs.emit _).leads
    | cons step steps =>
      have hs' : (s.push (.hook label steps)).Sound l [] := Sound.push_plain _ hs fun _ => rfl
      have hleads := hs'.begin step
      rw [callsOf_push] at hleads
      simp only [List.head?_cons, Option.toList_some, List.flatMap_cons, List.flatMap_nil,
        List.append_nil]
      exact hleads

theorem Sound.performRelease {elements : List ElementId} (hs : s.Sound l elements) :
    Leads s.store l (s.callsOfTask (.release elements)) (s.performRelease elements) := by
  cases elements with
  | nil => exact hs.leads
  | cons e elements =>
    obtain ⟨reply, l', destroyed, store, hcall, hstore, hact, hs₁⟩ := hs.act_put
    simp only [Session.performRelease, hact, Fault.ok_bind]
    have hs₂ : ((s.adopt store).push (.release elements)).Sound l' [] :=
      Sound.push_release (by simpa using hs₁)
    exact (hs₂.bury e destroyed).cons hcall hstore

theorem Sound.performDrop (hs : s.Sound l [e]) :
    Leads s.store l [.put e] (s.performDrop e) := by
  obtain ⟨reply, l', destroyed, store, hcall, hstore, hact, hs₁⟩ := hs.act_put
  simp only [Session.performDrop, hact, Fault.ok_bind]
  exact (hs₁.bury e destroyed).cons hcall hstore

theorem Sound.performPut (hs : s.Sound l [e]) :
    Leads s.store l [.put e] (s.performPut e) := by
  obtain ⟨reply, l', destroyed, store, hcall, hstore, hact, hs₁⟩ := hs.act_put
  simp only [Session.performPut, hact, Fault.ok_bind]
  exact ((hs₁.push_answer _).bury e destroyed).cons hcall hstore

theorem Sound.performKeep {entries : List (String × ElementId)}
    (hs : s.Sound l (entries.map Prod.snd)) :
    Leads s.store l [] (.ok (s.performKeep entries)) := by
  cases entries with
  | nil => exact hs.leads
  | cons entry entries =>
    obtain ⟨name, e⟩ := entry
    have hperm := s.handles.perm_insert name e
    rcases hinsert : s.handles.insert name e with ⟨replaced, handles⟩
    rw [hinsert] at hperm
    have hinOrder : handles.InOrder := by
      have hinOrder := hs.inOrder.insert name e
      rwa [hinsert] at hinOrder
    have hs₁ : Sound { s with handles := handles } l
        (entries.map Prod.snd ++ replaced.toList) := by
      refine hs.rename ?_ hinOrder
      rw [List.perm_iff_count] at hperm ⊢
      intro f
      have hcount := hperm f
      simp only [List.count_append, List.map_cons, List.count_cons] at hcount ⊢
      omega
    have hs₂ := hs₁.push_keep
    simp only [Session.performKeep, hinsert]
    cases replaced with
    | none => exact hs₂.leads
    | some old => exact hs₂.push_drop.leads

/-- Filling a table goes on: the next element is made, linked and put. -/
theorem Sound.performFill {items : List (Item K)} {cut : Bool} {hook : List (Step K)}
    {results : List (Except Refusal Unit)} (h : s.Ready l (.fill t items cut hook results) []) :
    Leads s.store l (s.callsOfTask (.fill t items cut hook results))
      (s.performFill t items cut hook results) := by
  have hs : s.Sound l [] := h.sound
  cases items with
  | nil => exact (hs.reply _).leads
  | cons item items =>
    obtain ⟨hname, hagrees⟩ := hs.agrees.create item
    have hsettle : (s.store.create item).2.settle = (s.store.create item).2 := by
      have hjournal : (s.store.create item).2.journal = [] := hs.settled
      simp only [Store.settle, ← hjournal]
    have hcall : l.call (.create item) =
      some (.created (s.store.create item).1, (l.create item).2) := by rw [Ledger.call, hname]
    have hstore : s.store.call (.create item) =
        .ok (.created (s.store.create item).1, (s.store.create item).2) := by
      rw [Store.call, hsettle]
    have hs₁ := hs.call [] hcall hstore (.refl _) (by simp) (by simp)
    obtain ⟨a, ha⟩ := hs₁.held (.inr (.inr (List.mem_singleton_self _)))
    obtain ⟨reply, l', store, hcall', hstore', hs₂⟩ :=
      hs₁.exists_call (c := .hash t (s.store.create item).1 item.key) [(s.store.create item).1]
        ⟨h.fits, a, ha⟩ (.refl _) (by simp) (fun u f k heq => by
          obtain ⟨rfl, -, -⟩ := by simpa using heq
          exact h.calm _ (by simp [Task.uses]))
    have hok := hstore'
    simp only [Store.call, Fault.bind_eq_ok_iff, Fault.pure_eq_ok_iff, Prod.mk.injEq,
      Prod.exists] at hok
    obtain ⟨result, store, hok, rfl, rfl⟩ := hok
    unfold Session.performFill
    dsimp only
    rw [act_eq ((s.store.create item).1, result) store, Fault.ok_bind]
    · have hs₃ : ((s.adopt store).attach (s.store.create item).1 hook).Sound l'
          [(s.store.create item).1] := hs₂.adopt.congr rfl rfl rfl rfl
      have hfits : Task.Fits l' (.fill t items cut hook (result :: results)) := by
        have hfits := h.fits.of_effect (Ledger.effect_of_call hs.agrees.covered hcall) (by simp)
        exact hfits.of_effect (Ledger.effect_of_call hs₁.agrees.covered hcall') (by simp)
      have hready : Ready ((s.adopt store).attach (s.store.create item).1 hook) l'
          (.fill t items cut hook (result :: results)) [(s.store.create item).1] :=
        ⟨hs₃, hfits, h.calm, by simp⟩
      exact (hready.push.push_drop.leads.cons hcall' hstore').cons hcall hstore
    · simp only [hok, Fault.ok_bind, Fault.pure_eq_ok]

/-- A traversal goes on, and what it took out is put next. -/
theorem Sound.performTraverse {buckets : List Nat} {visited : Nat}
    {kept : List (String × ElementId)} {hold unhash : Selection K} {target : String}
    (h : s.Ready l (.traverse t buckets visited kept hold unhash target) []) :
    Leads s.store l (s.callsOfTask (.traverse t buckets visited kept hold unhash target))
      (s.performTraverse t buckets visited kept hold unhash target) := by
  have hs : s.Sound l (kept.map Prod.snd) := by
    simpa [Task.handles, Task.pending] using h.sound
  cases buckets with
  | nil =>
    have hs' : s.Sound l (kept.reverse.map Prod.snd ++ []) := by
      refine hs.perm ?_
      rw [List.map_reverse, List.append_nil]
      exact (List.reverse_perm _).symm
    exact (Sound.push_keep (hs'.push_answer _)).leads
  | cons bucket buckets =>
    obtain ⟨r, hr, hbuckets⟩ := h.fits
    obtain ⟨reply, l', store, hcall, hstore, hs₁⟩ :=
      hs.exists_call (c := .walk t bucket visited fun number item =>
          ⟨hold number item, unhash number item⟩) (kept.map Prod.snd)
        ⟨r, hr, hbuckets bucket (by simp)⟩ (.refl _) (by simp) (by simp)
    have hok := hstore
    simp only [Store.call, Fault.bind_eq_ok_iff, Fault.pure_eq_ok_iff, Prod.mk.injEq] at hok
    obtain ⟨walk, hok, rfl, rfl⟩ := hok
    unfold Session.performTraverse
    dsimp only
    rw [act_eq (walk.visits, walk.released) walk.store, Fault.ok_bind,
      foldl_emit fun visit : Visit (Item K) => .visited visit.value visit.hash]
    · have hfits := h.fits.of_effect (Ledger.effect_of_call hs.agrees.covered hcall) (by simp)
      refine (Sound.push_release (Ready.push ⟨?_, ?_, ?_, by simp⟩)).leads.cons hcall hstore
      · refine Sound.perm (hs₁.congr rfl rfl rfl rfl) ?_
        rw [List.perm_iff_count]
        intro e
        simp only [Task.handles, Task.pending, Call.handed, List.map_append, List.map_reverse,
          map_keptBy, List.count_append, List.count_reverse, List.count_nil]
        omega
      · obtain ⟨r', hr', hbuckets'⟩ := hfits
        exact ⟨r', hr', fun i hi => hbuckets' i (List.mem_cons_of_mem _ hi)⟩
      · exact h.calm
    · simp only [hok, Fault.ok_bind, Fault.pure_eq_ok]

/-- A table that nothing refers to and nobody works on can be forgotten. -/
theorem Sound.freeTable (hs : s.Sound l []) {r : Roster (Item K) K} (hr : l.roster? t = some r)
    (hempty : r.entries = []) (hunnamed : t ∉ s.tables.values)
    (hunused : s.tasks.any (Task.uses t) = false) :
    ∃ l', l.call (.freeTable t) = some (.done, l') ∧
      Sound { s with store := (s.store.freeTable t).settle } l' [] := by
  obtain ⟨reply, l', hcall⟩ :=
    Ledger.exists_call hs.agrees.covered (c := .freeTable t) ⟨r, hr, hempty⟩
  obtain ⟨store, hok, hagrees, hidle⟩ := hs.agrees.call hs.idle hcall
  obtain ⟨rfl, rfl⟩ := Prod.mk.inj (Except.ok.inj hok)
  have heffect := Ledger.effect_of_call hs.agrees.covered hcall
  have hidle' : ∀ task ∈ s.tasks, task.uses t = false := by
    simpa using hunused
  have hfree : ∀ u, Call.freeTable t = (Call.freeTable u : Call (Item K) K) → u = t := by
    intro u heq
    injection heq with heq
    exact heq.symm
  refine ⟨l', hcall, hagrees, hidle, rfl, heffect.kept hs.kept, ?_, hs.inOrder, hs.tablesInOrder,
    ?_, hs.distinct, ?_, ?_⟩
  · intro e
    have hreferences := heffect.references e
    have hcustody := hs.custody e
    simp only [Call.returned, Call.handed, List.count_nil, Nat.add_zero] at hreferences
    rw [hreferences]
    exact hcustody
  · intro u hu
    obtain ⟨r', hr'⟩ := hs.named u hu
    obtain ⟨heq, -⟩ | ⟨r'', hr'', -⟩ := heffect.exists_roster hr'
    · obtain rfl := hfree u heq
      exact absurd hu hunnamed
    · exact ⟨r'', hr''⟩
  · intro task hmem
    refine (hs.fits task hmem).of_effect heffect fun u heq => ?_
    rw [hfree u heq]
    exact hidle' task hmem
  · intro u buckets n hmem
    obtain ⟨hclosed, hcount⟩ := hs.drained u buckets n hmem
    refine ⟨⟨hclosed.unnamed, fun r' hr' entry hentry => ?_⟩, hcount⟩
    obtain ⟨r₁, gone, hr₁, hthins, -⟩ | ⟨_, _, heq, -⟩ | ⟨_, _, _, _, heq, -⟩ := heffect.roster hr'
    · have hslot : r'.slot entry.2 = r₁.slot entry.2 := by
        simp only [Roster.slot, hthins.capacity]
      rw [hslot]
      exact hclosed.covered r₁ hr₁ entry (hthins.sublist.subset hentry)
    · cases heq
    · cases heq

/-- Draining goes on: the references of one bucket are put, and the other buckets wait. -/
theorem Sound.performDrain {buckets : List Nat} {drained : Nat}
    (h : s.Ready l (.drain t buckets drained) []) :
    Leads s.store l (s.callsOfTask (.drain t buckets drained))
      (s.performDrain t buckets drained) := by
  have hs : s.Sound l [] := h.sound
  obtain ⟨r, hr, hbuckets⟩ := h.fits
  obtain ⟨hclosed, hunused⟩ := h.closed t buckets drained rfl
  cases buckets with
  | nil =>
    have hempty : r.entries = [] := by
      rw [List.eq_nil_iff_forall_not_mem]
      intro entry hentry
      have hslot := hclosed.covered r hr entry hentry
      cases hslot
    obtain ⟨l', hcall, hs₁⟩ := hs.freeTable hr hempty hclosed.unnamed hunused
    have hs₂ : (s.adopt ((s.store.freeTable t).note (.drained drained))).Sound l' [] :=
      hs₁.congr rfl rfl rfl rfl
    exact hs₂.leads.cons hcall rfl
  | cons bucket buckets =>
    obtain ⟨reply, l', store, hcall, hstore, hs₁⟩ :=
      hs.exists_call (c := .drain t bucket) [] ⟨r, hr, hbuckets bucket (by simp)⟩ (.refl _)
        (by simp) (by simp)
    have hok := hstore
    simp only [Store.call, Fault.bind_eq_ok_iff, Fault.pure_eq_ok_iff, Prod.mk.injEq,
      Prod.exists] at hok
    obtain ⟨released, store, hok, rfl, rfl⟩ := hok
    unfold Session.performDrain
    dsimp only
    rw [act_eq released store hok, Fault.ok_bind]
    have hfits := h.fits.of_effect (Ledger.effect_of_call hs.agrees.covered hcall) (by simp)
    refine (Sound.push_release (Ready.push ⟨?_, ?_, ?_, ?_⟩)).leads.cons hcall hstore
    · exact hs₁.adopt
    · obtain ⟨r', hr', hbuckets'⟩ := hfits
      exact ⟨r', hr', fun i hi => hbuckets' i (List.mem_cons_of_mem _ hi)⟩
    · exact h.calm
    · rintro u buckets' n heq
      obtain ⟨rfl, rfl, -⟩ := by simpa using heq
      refine ⟨⟨hclosed.unnamed, fun r' hr' entry hentry => ?_⟩, hunused⟩
      obtain ⟨r₁, hr₁, hmem, hslot, hsame⟩ := Ledger.mem_entries_of_drain hcall hr' hentry
      rw [hsame]
      exact (List.mem_cons.mp (hclosed.covered r₁ hr₁ entry hmem)).resolve_left hslot

theorem Sound.performTeardown (hs : s.Sound l []) : Leads s.store l [] s.performTeardown := by
  unfold Session.performTeardown
  cases htake : s.handles.takeFirst? with
  | some taken =>
    obtain ⟨e, handles⟩ := taken
    obtain ⟨hperm, hinOrder⟩ := Directory.perm_of_takeFirst? hs.inOrder htake
    have hs₁ : Sound { s with handles := handles } l [e] := by
      refine hs.rename ?_ hinOrder
      rw [List.append_nil]
      exact hperm.trans (List.perm_append_singleton e _).symm
    exact (Sound.push_drop (Sound.push_plain .teardown hs₁ fun _ => rfl)).leads
  | none =>
    dsimp only
    cases htake : s.tables.takeFirst? with
    | some taken =>
      obtain ⟨t, tables⟩ := taken
      obtain ⟨hperm, hinOrder⟩ := Directory.perm_of_takeFirst? hs.tablesInOrder htake
      obtain ⟨hs₁, hunnamed, r, hr⟩ := hs.removeTable hperm hinOrder
      exact (Sound.push_plain .teardown hs₁ fun _ => rfl).retire hr hunnamed
    | none => exact hs.leads

/-- The next bit of the most urgent task leads to calls and leaves the session sound. -/
theorem Sound.perform (hs : s.Sound l []) {task : Task K} {tasks : List (Task K)}
    (htasks : s.tasks = task :: tasks) :
    Leads s.store l (callsOfTask { s with tasks := tasks } task)
      ({ s with tasks := tasks }.perform task) := by
  have h := hs.pop htasks
  have hs' := h.sound
  rw [List.append_nil] at hs'
  cases task with
  | hook label steps => exact Sound.performHook hs' label steps
  | release elements => exact hs'.performRelease
  | drop e => exact hs'.performDrop
  | put e => exact hs'.performPut
  | keep entries =>
    simp only [Task.handles, Task.pending, List.append_nil] at hs'
    exact hs'.performKeep
  | fill t items cut hook results => exact Sound.performFill h
  | traverse t buckets visited kept hold unhash target => exact Sound.performTraverse h
  | drain t buckets drained => exact Sound.performDrain h
  | answer answer => exact (Sound.reply hs' answer).leads
  | teardown => exact Sound.performTeardown hs'

end HashIndex.Script.Session
