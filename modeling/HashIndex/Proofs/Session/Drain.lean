import HashIndex.Proofs.Session.Faults

/-!
# Dropping a table from end to end

A table that is dropped has no name any more, so hooks cannot reach it. Its buckets are drained in
ascending order: all elements of a bucket are taken out of it, and then the references that the
table had to them are put one after the other. Whatever hooks do meanwhile, what is in the other
buckets stays there. In the end nothing has the table for its owner, so another table may take its
place.

## Main definitions

* `Session.Drains`: the rest of the drop of a table.

## Main statements

* `Session.Above.sameTable`: a table that waits to be drained is left alone.
* `Session.Above.exists_drains`: a task that is to drain buckets does so in their order.
* `Session.Reachable.drains`: a table that is dropped is drained to the end, unless a hook drops a
  table that is in use.
-/

namespace HashIndex.Script.Session

variable {K : Type} {s s' s₀ s₁ s₂ : Session K} {l : Ledger (Item K) K} {t u : TableId}
  {base tasks : List (Task K)} {task : Task K} {i n total : Nat} {buckets : List Nat}
  {start : Store (Item K) K} {calls : List (Call (Item K) K)} {e : ElementId}
  {x : Element (Item K)} {step : Step K}

/-! ## A table that waits to be drained -/

theorem changes_callsOf (hunnamed : t ∉ s.tables.values) :
    ∀ c ∈ s.callsOf step, c.changes t = false := by
  have hne : ∀ {name u}, s.tables.find? name = some u → u ≠ t := by
    rintro name u hfind rfl
    exact hunnamed (Directory.mem_values_of_find? hfind)
  cases step <;> simp only [callsOf] <;> repeat' split
  all_goals grind [Call.changes]

theorem changes_callsOfTask (hunnamed : t ∉ s.tables.values) (huses : task.uses t = false) :
    ∀ c ∈ s.callsOfTask task, c.changes t = false := by
  unfold callsOfTask
  split
  case h_1 label steps =>
    split
    · simp
    · cases steps with
      | nil => simp
      | cons step steps => simpa using changes_callsOf hunnamed
  all_goals simp_all [Call.changes, Task.uses]

/-- Nobody but the task that drains a table does anything with it. -/
theorem Reachable.sameTable (h : Reachable calls s) (hmoves : Moves base s s')
    (hdrain : .drain t buckets n ∈ base) : s.store.SameTable s'.store t := by
  obtain ⟨-, l, -, -, hs⟩ := h.sound
  cases hmoves with
  | begin step hbase hbegin =>
    have hmem := hbase.subset hdrain
    obtain ⟨⟨hunnamed, -⟩, -⟩ := hs.drained t buckets n hmem
    obtain ⟨r, hr, -⟩ := hs.fits _ hmem
    obtain ⟨replies, l', hcalls, -, hs'⟩ := (hbegin ▸ hs.begin step).exists_of_ok
    exact hs.agrees.sameTable hs'.agrees ((Ledger.roster?_of_callAll hs.agrees hs.idle hcalls
      (changes_callsOf hunnamed) hr).trans hr.symm)
  | perform task tasks hbase htasks hperform =>
    have hmem := hbase.subset hdrain
    have hmem' : .drain t buckets n ∈ s.tasks := htasks ▸ List.mem_cons_of_mem _ hmem
    obtain ⟨⟨hunnamed, -⟩, -⟩ := hs.drained t buckets n hmem'
    obtain ⟨r, hr, -⟩ := hs.fits _ hmem'
    have huses : task.uses t = false := by
      by_contra huses
      exact (hs.pop htasks).calm t (by simpa using huses) buckets n hmem
    obtain ⟨replies, l', hcalls, -, hs'⟩ := (hperform ▸ hs.perform htasks).exists_of_ok
    exact hs.agrees.sameTable hs'.agrees ((Ledger.roster?_of_callAll hs.agrees hs.idle hcalls
      (changes_callsOfTask (by exact hunnamed) huses) hr).trans hr.symm)

/-- A table that waits to be drained is left alone, whatever happens. -/
theorem Above.sameTable (habove : Above base s s') (h : Reachable calls s)
    (hdrain : .drain t buckets n ∈ base) : s.store.SameTable s'.store t := by
  induction habove with
  | refl => exact .refl _ _
  | tail habove hmoves ih =>
    obtain ⟨calls₁, h₁⟩ := Above.reachable habove h
    exact ih.trans (h₁.sameTable hmoves hdrain)

/-! ## Bits of a drop -/

/-- The rest of the drop of a table, while the tasks `base` wait: the `buckets` are still to be
drained, and `n` elements have been, of `total` that were in the table in the beginning. Before a
bucket is drained anything may happen, and so it may when references are put. -/
inductive Drains (t : TableId) (base : List (Task K)) (start : Store (Item K) K) (total : Nat) :
    List Nat → Nat → Session K → Session K → Prop
  | nil {s s₁ : Session K} {table : Table (Item K) K}
    (hbefore : Above (.drain t [] total :: base) s s₁)
    (htasks : s₁.tasks = .drain t [] total :: base)
    (htable : s₁.store.table? t = some table) (hcounter : table.entries = 0)
    (hgone : ∀ e x, s₁.store.heap.get? e = some x → x.owner ≠ .table t) :
    Drains t base start total [] total s { s₁ with
      store := s₁.store.freeTable t
      tasks := base
      events := .noted (.drained total) :: s₁.events }
  | cons {i : Nat} {buckets : List Nat} {n : Nat} {released : List ElementId}
    {store : Store (Item K) K} {waiting : Task K} {s s₁ s₂ s₃ s₄ : Session K}
    (hbefore : Above (.drain t (i :: buckets) n :: base) s s₁)
    (htasks : s₁.tasks = .drain t (i :: buckets) n :: base)
    (hstart : start.members? t i = some released)
    (hmembers : s₁.store.members? t i = some released)
    (hdetaches : s₁.store.Detaches t i [] released store)
    (hwaiting : waiting = .drain t buckets (n + released.length))
    (hdrained : s₂ = { s₁ with store := store, tasks := .release released :: waiting :: base })
    (hreleases : Releases (waiting :: base) released s₂ s₃)
    (hrest : Drains t base start total buckets (n + released.length) s₃ s₄) :
    Drains t base start total (i :: buckets) n s s₄

/-- The rest of a drop is done before anything below it. The buckets that are still to be drained
have in them what they had in the beginning. -/
theorem Above.exists_drains (habove : Above base s s') (h : Reachable calls s)
    (hwaits : .drain t buckets n :: base <:+ s.tasks) (hdone : s'.tasks = base)
    (hnodup : buckets.Nodup)
    (hstart : ∀ j ∈ buckets, s.store.members? t j = start.members? t j)
    (htotal : n + (buckets.map fun j => ((start.members? t j).getD []).length).sum = total) :
    ∃ s₁, Drains t base start total buckets n s s₁ ∧ Above base s₁ s' := by
  induction buckets generalizing s n calls with
  | nil =>
    obtain rfl : n = total := by simpa using htotal
    obtain ⟨s₁, s₂, hbefore, htasks, hperform, hrest⟩ := habove.exists_resume h hwaits hdone
    obtain ⟨calls₁, h₁⟩ := hbefore.reachable h
    obtain ⟨⟨table, ht, hcounter⟩, hgone, hok⟩ := h₁.drain_nil htasks
    obtain rfl := Except.ok.inj (hperform.symm.trans hok)
    exact ⟨_, .nil hbefore htasks ht hcounter hgone, hrest⟩
  | cons i buckets ih =>
    obtain ⟨s₁, s₂, hbefore, htasks, hperform, hrest⟩ := habove.exists_resume h hwaits hdone
    obtain ⟨calls₁, h₁⟩ := hbefore.reachable h
    obtain ⟨released, store, -, hmembers, hdetaches, hok⟩ := h₁.drain htasks
    obtain hs₂ := Except.ok.inj (hperform.symm.trans hok)
    have h₂ := h₁.perform htasks hperform
    obtain ⟨s₃, hreleases, hdone₃, hbetween, hrest₃⟩ :=
      hrest.exists_releases_above h₂ (congrArg Session.tasks hs₂) hdone
    obtain ⟨calls₃, h₃⟩ := hbetween.reachable h₂
    -- the table is left alone until its bucket is drained, and again until the next one is
    have hsame₁ := hbefore.sameTable h List.mem_cons_self
    have hsame₃ := hbetween.sameTable h₂ List.mem_cons_self
    have hreleased : start.members? t i = some released := by
      rw [← hstart i List.mem_cons_self, ← hsame₁.members i, hmembers]
    obtain ⟨hi, hnodup⟩ := List.nodup_cons.mp hnodup
    have hwaits₃ : .drain t buckets (n + released.length) :: base <:+ s₃.tasks :=
      hdone₃ ▸ List.suffix_refl _
    obtain ⟨s₄, hdrains, hafter⟩ := ih hrest₃ h₃ hwaits₃ hnodup (fun j hj => by
        have hne : j ≠ i := fun heq => hi (heq ▸ hj)
        have hother := hdetaches.chains t j
        rw [hsame₃.members j, hs₂, hother, hsame₁.members j, hstart j (List.mem_cons_of_mem _ hj)]
        simp [hne])
      (by
        rw [List.map_cons, List.sum_cons, hreleased, Option.getD_some] at htotal
        omega)
    exact ⟨s₄, .cons hbefore htasks hreleased hmembers hdetaches rfl hs₂ hreleases hdrains, hafter⟩

/-! ## Nothing is left of a table -/

theorem Reachable.exists_table_of_owner (h : Reachable calls s)
    (hx : s.store.heap.get? e = some x) (howner : x.owner = .table u) :
    ∃ table, s.store.table? u = some table := by
  obtain ⟨-, l, -, -, hs⟩ := h.sound
  obtain ⟨r, hr, -⟩ := hs.agrees.owned e x u hx howner
  exact hs.agrees.exists_table_iff.mpr ⟨r, hr⟩

/-- A new table takes a place that no element has for its owner. -/
theorem Reachable.owner_ne_of_beginTable (h : Reachable calls s) {name : String}
    {strategy : Strategy (Item K) K} {capacity : Capacity}
    (hbegin : s.begin (.table name strategy capacity) = .ok s')
    (hx : s'.store.heap.get? e = some x) :
    x.owner ≠ .table (s.store.createTable strategy capacity).1 := by
  obtain ⟨-, l, -, -, hs⟩ := h.sound
  obtain ⟨replies, l', hcalls, -, hs'⟩ :=
    (hbegin ▸ hs.begin (.table name strategy capacity)).exists_of_ok
  obtain ⟨-, rfl⟩ := Prod.mk.inj (Option.some.inj hcalls)
  rw [(hs.agrees.createTable strategy capacity).1]
  intro howner
  obtain ⟨r, hr, he⟩ := hs'.agrees.owned e x _ hx howner
  rw [(l.roster?_createTable strategy capacity).2, if_pos rfl] at hr
  obtain rfl := Option.some.inj hr
  cases he

/-! ## All of it -/

/-- A drop that has come to its end went through all buckets. -/
theorem Above.drains_of_done {table : Table (Item K) K} (habove : Above base s s')
    (h : Reachable calls s) (ht : s.store.table? t = some table)
    (htasks : s.tasks = .drain t (List.range table.buckets.size) 0 :: base)
    (hdone : s'.tasks = base) :
    ∃ s₂, Drains t base s.store table.entries (List.range table.buckets.size) 0 s s₂ ∧
      Above base s₂ s' := by
  obtain ⟨-, l, -, -, hs⟩ := h.sound
  refine habove.exists_drains h (htasks ▸ List.suffix_refl _) hdone List.nodup_range
    (fun _ _ => rfl) ?_
  rw [Nat.zero_add]
  exact hs.agrees.sum_length_members? ht

/-- A table that is dropped is drained to the end, whatever is done meanwhile; only a hook that
drops a table that is in use can keep it from that. Every element that was in it is taken out once,
and put in its turn; what is in the buckets that wait stays there; and what is taken out can be
linked again. No element ever has a table for its owner that is gone, and a table that takes the
place of another has no elements. -/
theorem Reachable.drains (h : Reachable calls s) (hretire : s₀.retire t = .ok s) :
    (∃ table, s.store.table? t = some table ∧
      s.tasks = .drain t (List.range table.buckets.size) 0 :: s₀.tasks ∧
      (∀ s₁, Above s₀.tasks s s₁ →
        (∃ s₂ s', Drains t s₀.tasks s.store table.entries (List.range table.buckets.size) 0 s s₂ ∧
          Above s₀.tasks s₂ s' ∧ Advances s₀.tasks s₁ s' ∧ s'.tasks = s₀.tasks) ∨
        ∃ s', Advances s₀.tasks s₁ s' ∧ s'.Conflict) ∧
      ∀ s', Above s₀.tasks s s' → s'.tasks = s₀.tasks → ∃ s₂,
        Drains t s₀.tasks s.store table.entries (List.range table.buckets.size) 0 s s₂ ∧
          Above s₀.tasks s₂ s') ∧
    (∀ s₁ s₂ buckets n, Above s₀.tasks s s₁ → .drain t buckets n :: s₀.tasks <:+ s₁.tasks →
      Above (.drain t buckets n :: s₀.tasks) s₁ s₂ →
        s₁.store.SameTable s₂.store t ∧
          ∀ i es e, s₂.store.members? t i = some es → e ∈ es → s₂.store.Belongs t e) ∧
    (∀ s₁ e x u table key, Above s₀.tasks s s₁ → e ∈ s₁.handleList →
      s₁.store.heap.get? e = some x → x.owner = .nobody → s₁.store.table? u = some table →
      table.strategy.equal x.value key = true →
        ∃ result store, s₁.store.hash u e key = .ok (result, store) ∧
          (result = .ok () ∨ result = .error .duplicateKey)) ∧
    ∀ calls₁ (s₁ : Session K), Reachable calls₁ s₁ →
      (∀ e x u, s₁.store.heap.get? e = some x → s₁.store.table? u = none →
        x.owner ≠ .table u) ∧
      ∀ name strategy capacity s₂ e x, s₁.begin (.table name strategy capacity) = .ok s₂ →
        s₂.store.heap.get? e = some x →
          x.owner ≠ .table (s₁.store.createTable strategy capacity).1 ∧
            s₂.store.unhash (s₁.store.createTable strategy capacity).1 e =
              .ok (.error .notHashed, s₂.store) := by
  obtain ⟨table, ht, rfl⟩ := exists_of_retire hretire
  refine ⟨⟨table, ht, rfl, fun s₁ habove => ?_,
      fun s' habove hdone => habove.drains_of_done h ht rfl hdone⟩,
    fun s₁ s₂ buckets n hbefore hwaits habove => ?_,
    fun s₁ e x u table key habove he hx hnobody ht hequal => ?_,
    fun calls₁ s₁ h₁ => ⟨fun e x u hx hnone howner => ?_,
      fun name strategy capacity s₂ e x hbegin hx => ?_⟩⟩
  · refine (habove.ends_or_conflict h (List.suffix_cons _ _)).imp_left ?_
    rintro ⟨s', hadvances, habove', hdone⟩
    obtain ⟨s₂, hdrains, hrest⟩ := habove'.drains_of_done h ht rfl hdone
    exact ⟨s₂, s', hdrains, hrest, hadvances, hdone⟩
  · obtain ⟨calls₁, h₁⟩ := hbefore.reachable h
    obtain ⟨calls₂, h₂⟩ := habove.reachable h₁
    obtain ⟨-, l, -, -, hs⟩ := h₂.sound
    refine ⟨habove.sameTable h₁ List.mem_cons_self, fun i es e hes he => ?_⟩
    obtain ⟨x, hx, howner⟩ := hs.agrees.owner_of_members? hes he
    exact Store.belongs_of_owner hx howner
  · obtain ⟨calls₁, h₁⟩ := habove.reachable h
    obtain ⟨-, l, -, -, hs⟩ := h₁.sound
    obtain ⟨a, ha⟩ := hs.held (.inl he)
    exact hs.agrees.hash_of_nobody hs.idle ha hx hnobody ht hequal
  · obtain ⟨table, ht⟩ := h₁.exists_table_of_owner hx howner
    rw [hnone] at ht
    cases ht
  · have howner := h₁.owner_ne_of_beginTable hbegin hx
    exact ⟨howner, Store.unhash_of_owner_ne hx howner⟩

/-- A table that has a name and that nobody works on can be dropped. -/
theorem Reachable.exists_retire (h : Reachable calls s) {name : String}
    (hfind : s.tables.find? name = some t) (hunused : s.tasks.any (Task.uses t) = false) :
    ∃ s₀ s₁ : Session K, s.begin (.dropTable name) = .ok s₁ ∧ s₀.retire t = .ok s₁ ∧
      s₀.tasks = .answer .nothing :: s.tasks := by
  obtain ⟨-, l, -, -, hs⟩ := h.sound
  obtain ⟨-, r, hr⟩ := hs.named_of_find? hfind
  obtain ⟨tables, htake⟩ : ∃ tables, s.tables.take? name = some (t, tables) :=
    ⟨_, by rw [Directory.take?, hfind, Option.map_some]⟩
  have hretire : ({ s with tables := tables }.push (.answer .nothing)).retire t =
      .ok (({ s with tables := tables }.push (.answer .nothing)).push
        (.drain t (List.range r.capacity.size) 0)) := by
    have hrange : ({ s with tables := tables }.push (.answer .nothing)).store.bucketRange t =
        .ok (List.range r.capacity.size) := hs.agrees.bucketRange hr
    have hany : ({ s with tables := tables }.push (.answer .nothing)).tasks.any (Task.uses t) =
        false := by simpa [push, Task.uses] using hunused
    simp only [retire, hany, hrange, Bool.false_eq_true, if_false, Fault.ok_bind, Fault.pure_eq_ok]
  refine ⟨_, _, ?_, hretire, rfl⟩
  simp only [Session.begin, beginDropTable, htake, hretire]

/-- What is to be seen while the first table of the script that moves elements about is dropped. -/
def drainingEvents : List (Event Nat) :=
  [.freed "t" "c", .noted (.selected 39 31 7), .hooked "c" .done,
    .hooked "c" (.info ⟨⟨"d", 40, 0⟩, 1, false⟩), .noted (.selected 40 31 8), .hooked "c" .done,
    .hooked "c" .nothing, .noted (.selected 40 31 8), .noted (.selected 40 31 8), .freed "u" "d",
    .hooked "d" (.info ⟨⟨"e", 9, 0⟩, 1, false⟩), .hooked "d" (.complaint .noSuchTable),
    .dropped "d", .hooked "c" (.flag true), .dropped "c", .noted (.drained 3)]

/-- A table is dropped that has three elements in a bucket. The first one is destroyed, and its hook
links the second one, which was taken out with it, into another table. -/
theorem Reachable.drains_of_moving :
    ∃ (calls : List (Call (Item Nat) Nat)) (s s₀ s₁ s₂ s₃ : Session Nat)
      (table : Table (Item Nat) Nat), Reachable calls s ∧ s.tables.find? "t" = some 0 ∧
      s.tasks = [] ∧ s.store.members? 0 7 = some [2, 1, 0] ∧ s.begin (.dropTable "t") = .ok s₁ ∧
      s₀.retire 0 = .ok s₁ ∧ s₁.store.table? 0 = some table ∧
      Drains 0 [.answer .nothing] s₁.store table.entries (List.range table.buckets.size) 0 s₁ s₂ ∧
      Above [.answer .nothing] s₂ s₃ ∧ Advances [.answer .nothing] s₁ s₃ ∧
      s₃.tasks = [.answer .nothing] ∧ s₃.store.heap.get? 2 = none ∧
      s₃.events.reverse = drainingEvents := by
  obtain ⟨calls, -, s, s', h, -, htasks, hnext, hfind, hmembers, hdone, hgone, hevents⟩ :=
    exists_reachable_of_play 6 movingScript (fun s => s.begin (.dropTable "t") >>= advance 7)
      (fun s s' => s.tables.find? "t" = some 0 ∧ s.store.members? 0 7 = some [2, 1, 0] ∧
        s'.tasks = [] ∧ (s'.store.heap.get? 2).isNone ∧ s'.events.reverse = drainingEvents)
      (by decide +kernel)
  obtain ⟨s₁, hbegin, hadvance⟩ := Fault.bind_eq_ok_iff.mp hnext
  have hadvances := advances_of_advance hadvance
  have h₁ := h.begin _ hbegin
  obtain ⟨s₀, _, hbegin', hretire, hanswer⟩ := h.exists_retire hfind (by rw [htasks]; rfl)
  obtain rfl := Except.ok.inj (hbegin'.symm.trans hbegin)
  obtain ⟨⟨table, ht, -, hends, -⟩, -⟩ := Reachable.drains h₁ hretire
  rw [hanswer, htasks] at hends
  obtain ⟨s₂, s₃, hdrains, hrest, hadvances₃, hdone₃⟩ | ⟨s₃, hadvances₃, hconflict⟩ :=
    hends _ .refl
  · -- all that is left to be done is to answer
    have hlast : Advances [] _ ({ s₃ with tasks := [] }.reply .nothing) :=
      (hadvances₃.mono List.nil_suffix).tail ⟨_, [], List.nil_suffix, hdone₃, rfl⟩
    obtain rfl := hlast.eq_of_done rfl hadvances hdone
    exact ⟨calls, s, s₀, _, s₂, s₃, table, h, hfind, htasks, hmembers, hbegin, hretire, ht, hdrains,
      hrest, hadvances₃, hdone₃, Option.isNone_iff_eq_none.mp hgone, hevents⟩
  · exact absurd hconflict
      (h₁.not_conflict_of_done hadvances hdone (hadvances₃.mono List.nil_suffix))

end HashIndex.Script.Session
