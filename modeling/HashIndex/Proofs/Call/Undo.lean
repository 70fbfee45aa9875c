import HashIndex.Proofs.Call.CachedHash

/-!
# Undoing links

Elements that were linked one after the other may be taken out in any order, from wherever they are
in their chains by then. Removals from lists do not care about their order, so the elements might as
well leave in the order opposite to that in which they came; and then each of them is the first of
its list when it leaves. What is back in the end is not only what the lists say, but every link of
every chain. Only the releases stay, which the tables gave to the elements, and the hashes, which
nobody looks at.

## Main definitions

* `Link`, `Link.event`: an element that is linked into a table, and the call that does so.
* `Store.unhashAll`: elements are taken out of their tables one after the other.
* `Store.Restores`: a store is as it was before elements were linked.
* `Ledger.undo`, `Ledger.Links`: removals and links as they are meant.
* `Store.plain`, `Ledger.plain`: everything but the releases.
* `Element.Alike`: elements that differ in cached hashes and releases only.

## Main statements

* `Ledger.undo_perm`: removals may be made in any order.
* `Ledger.Links.concat`: what one more link does.
* `Store.Agrees.unhashAll`: elements of tables can be taken out one after the other.
* `Store.Runs.unhash_undoes_hash`: taking out undoes linking, in any order.
-/

namespace HashIndex

variable {V K : Type}

/-- An element that is linked into a table under a key. -/
structure Link (K : Type) where
  table : TableId
  element : ElementId
  key : K

def Link.event (link : Link K) : Call V K × Reply V :=
  (.hash link.table link.element link.key, .result (.ok ()))

namespace Store

/-- Take elements out of their tables one after the other, and put the references of the tables. -/
def unhashAll : List (Link K) → Store V K →
    Except Fault (List (Except Refusal Unit × Option (Element V)) × Store V K)
  | [], s => .ok ([], s)
  | link :: links, s => do
    let (result, destroyed, s) ← s.unhashPut link.table link.element
    let (results, s) ← unhashAll links s
    return ((result, destroyed) :: results, s)

/-- The store `w` is as `s` was: the chains of all tables with the links of their elements, the
counters, the references and the owners. Elements that are in no table may have another cached hash
and another release if they are among `es`. -/
structure Restores (s : Store V K) (es : List ElementId) (w : Store V K) : Prop where
  tables : w.tables = s.tables
  locks : w.locks = s.locks
  size : w.heap.size = s.heap.size
  others : ∀ e ∉ es, w.heap.get? e = s.heap.get? e
  unlinked : ∀ e ∈ es, ∃ x hash release, s.heap.get? e = some x ∧ x.owner = .nobody ∧
    w.heap.get? e = some { x with hash := hash, release := release }

end Store

/-! ## Everything but the releases -/

def Element.plain (x : Element V) : Element V := { x with release := .drop }

def Account.plain (a : Account V) : Account V := { a with release := .drop }

def Store.plain (s : Store V K) : Store V K :=
  { s with heap := ⟨s.heap.places.map (Option.map Element.plain)⟩ }

def Ledger.plain (l : Ledger V K) : Ledger V K :=
  { l with accounts := l.accounts.map (Option.map Account.plain) }

theorem Element.Agrees.plain {x : Element V} {a : Account V} (h : x.Agrees a) :
    x.plain.Agrees a.plain :=
  ⟨h.value, rfl, h.count, h.unclaimed, h.unlinked⟩

/-- Two elements that differ in nothing but their cached hashes and their releases. -/
def Element.Alike (x y : Element V) : Prop :=
  y = { x with hash := y.hash, release := y.release }

theorem Element.Similar.alike {x y : Element V} (h : x.plain.Similar y.plain) : x.Alike y := by
  have hwords := h.words
  simp only [Element.plain, Element.mk.injEq] at hwords
  obtain ⟨hvalue, hprev, hnext, howner, -, hcount, -⟩ := hwords
  rw [Alike, ← hvalue, ← hprev, ← hnext, ← howner, ← hcount]

@[simp] theorem Store.get?_plain (s : Store V K) (e : ElementId) :
    s.plain.heap.get? e = (s.heap.get? e).map Element.plain := by
  simp only [Heap.get?, plain, Array.getElem?_map]
  cases s.heap.places[e]? <;> rfl

@[simp] theorem Ledger.account?_plain (l : Ledger V K) (e : ElementId) :
    l.plain.account? e = (l.account? e).map Account.plain := by
  simp only [account?, plain, List.getElem?_map]
  cases l.accounts[e]? <;> rfl

/-- The releases of a store have nothing to do with the rest of it. -/
theorem Store.Agrees.plain {s : Store V K} {l : Ledger V K} (hs : s.Agrees l) :
    s.plain.Agrees l.plain := by
  constructor
  · simpa [Store.plain, Ledger.plain, Heap.size] using hs.elements
  · exact hs.tables
  · intro e
    have hrel := hs.element e
    rw [get?_plain, Ledger.account?_plain]
    generalize s.heap.get? e = x? at hrel ⊢
    generalize l.account? e = a? at hrel ⊢
    cases hrel with
    | none => exact .none
    | some hxa => exact .some hxa.plain
  · intro t
    refine rel_of_rel (fun table r _ _ htable => htable.congr fun _ _ entry _ => ?_) (hs.table t)
    simp only [Heap.links, get?_plain, Option.map_map]
    rfl
  · intro t r hr e hash he
    obtain ⟨x, hx, howner, hhash⟩ := hs.listed t r hr e hash he
    exact ⟨x.plain, by rw [get?_plain, hx, Option.map_some], howner, hhash⟩
  · intro e y t hy howner
    rw [get?_plain] at hy
    obtain ⟨x, hx, rfl⟩ := Option.map_eq_some_iff.mp hy
    exact hs.owned e x t hx howner
  · exact hs.nodup

/-! ## Removals in any order -/

theorem Roster.remove_comm (r : Roster V K) (e f : ElementId) :
    (r.remove e).remove f = (r.remove f).remove e := by
  simp only [Roster.remove, List.filter_filter]
  congr 2
  funext entry
  exact Bool.and_comm _ _

namespace Ledger

variable {l l' m : Ledger V K} {links order : List (Link K)} {link : Link K} {e : ElementId}
  {t : TableId} {key : K}

/-- Elements leave their tables, and all references are put. -/
def undo (l : Ledger V K) (links : List (Link K)) : Ledger V K :=
  links.foldl (fun l link => l.updateRoster link.table fun r => r.remove link.element) l

theorem updateRoster_comm (l : Ledger V K) (t u : TableId) {f g : Roster V K → Roster V K}
    (hcomm : ∀ r, f (g r) = g (f r)) :
    (l.updateRoster t f).updateRoster u g = (l.updateRoster u g).updateRoster t f := by
  unfold updateRoster
  congr 1
  refine List.ext_getElem? fun i => ?_
  simp only [List.getElem?_modify]
  cases l.rosters[i]? with
  | none => simp
  | some r? => by_cases ht : t = i <;> by_cases hu : u = i <;> cases r? <;> simp [ht, hu, hcomm]

/-- Removals may be made in any order. -/
theorem undo_perm (hperm : order.Perm links) (l : Ledger V K) : l.undo order = l.undo links :=
  hperm.foldl_eq' (fun _ _ _ _ m => updateRoster_comm m _ _ fun r => r.remove_comm _ _) l

theorem accounts_undo (l : Ledger V K) (links : List (Link K)) :
    (l.undo links).accounts = l.accounts := by
  induction links generalizing l with
  | nil => rfl
  | cons link links ih => exact ih _

theorem rosters_undo (hsame : l'.rosters = l.rosters) (links : List (Link K)) :
    (l'.undo links).rosters = (l.undo links).rosters := by
  induction links generalizing l l' with
  | nil => exact hsame
  | cons link links ih => exact ih (by simp only [updateRoster, hsame])

/-- An element that leaves a table it has just come to leaves the table as it was. -/
theorem remove_insert_rosters (hfree : l.isLinked e = false) (t : TableId) (key : K) :
    ((l.updateRoster t fun r => r.insert e key).updateRoster t fun r => r.remove e).rosters =
      l.rosters := by
  refine List.ext_getElem? fun u => ?_
  simp only [updateRoster, List.getElem?_modify]
  cases hu : l.rosters[u]? with
  | none => simp
  | some r? =>
    cases r? with
    | none => simp
    | some r =>
      have hout : e ∉ r.elements := by
        intro he
        have hlinked := isLinked_iff.mpr ⟨u, r, by rw [roster?, hu, Option.join_some], he⟩
        rw [hfree] at hlinked
        cases hlinked
      have hsame : r.remove e = r := by
        simp only [Roster.remove]
        congr 1
        refine List.filter_eq_self.mpr fun entry hentry => decide_eq_true ?_
        rintro rfl
        exact hout (List.mem_map_of_mem hentry)
      by_cases htu : t = u <;> simp [htu, hsame]

/-! ## One link -/

section Hash

variable {f : ElementId} {u : TableId} {r : Roster V K} {a : Account V}
  (hhash : l.hash t e key = some (.ok (), l'))

include hhash

theorem exists_of_hash : ∃ r a, l.roster? t = some r ∧ l.held? e = some a ∧
    l.isLinked e = false ∧ l' = (l.updateRoster t fun r => r.insert e key).updateAccount e
      fun a => { a with release := r.strategy.release } := by
  obtain ⟨r, a, hr, ha, hcases⟩ := hash_cases hhash
  obtain ⟨-, hfree, -, -, rfl⟩ := by simpa using hcases
  exact ⟨r, a, hr, ha, hfree, rfl⟩

theorem rosters_of_hash : (l'.updateRoster t fun r => r.remove e).rosters = l.rosters := by
  obtain ⟨r, a, -, -, hfree, rfl⟩ := exists_of_hash hhash
  exact remove_insert_rosters hfree t key

theorem account?_of_hash (hf : f ≠ e) : l'.account? f = l.account? f := by
  obtain ⟨r, a, -, -, -, rfl⟩ := exists_of_hash hhash
  rw [account?_updateAccount, if_neg hf, account?_updateRoster]

theorem plain_of_hash : l'.plain.accounts = l.plain.accounts := by
  obtain ⟨r, a, -, -, -, rfl⟩ := exists_of_hash hhash
  refine List.ext_getElem? fun f => ?_
  simp only [plain, updateAccount, updateRoster, List.getElem?_map, List.getElem?_modify]
  cases l.accounts[f]? with
  | none => rfl
  | some a? => by_cases hf : e = f <;> cases a? <;> simp [hf, Account.plain]

theorem exists_held_of_hash (ha : l.held? f = some a) : ∃ a', l'.held? f = some a' := by
  obtain ⟨r, -, -, -, -, rfl⟩ := exists_of_hash hhash
  obtain ⟨ha, hpos⟩ := held?_eq_some_iff.mp ha
  simp only [held?_eq_some_iff, account?_updateAccount, account?_updateRoster]
  split
  · subst f
    exact ⟨{ a with release := r.strategy.release }, by rw [ha, Option.map_some], hpos⟩
  · exact ⟨a, ha, hpos⟩

theorem exists_roster_of_hash (hr : l.roster? u = some r) :
    ∃ r', l'.roster? u = some r' ∧ r.elements ⊆ r'.elements := by
  obtain ⟨-, -, -, -, -, rfl⟩ := exists_of_hash hhash
  rw [roster?_updateAccount, roster?_updateRoster]
  split
  · subst u
    rw [hr, Option.map_some]
    exact ⟨_, rfl, List.subset_cons_self _ _⟩
  · exact ⟨r, hr, List.Subset.refl _⟩

theorem isLinked_of_hash (hf : l.isLinked f = true) : l'.isLinked f = true := by
  obtain ⟨u, r, hr, hf⟩ := isLinked_iff.mp hf
  obtain ⟨r', hr', hsub⟩ := exists_roster_of_hash hhash hr
  exact isLinked_iff.mpr ⟨u, r', hr', hsub hf⟩

theorem exists_linked_of_hash :
    ∃ r a, l'.roster? t = some r ∧ e ∈ r.elements ∧ l'.held? e = some a := by
  obtain ⟨r, a, hr, ha, -, hl'⟩ := exists_of_hash hhash
  obtain ⟨a', ha'⟩ := exists_held_of_hash hhash ha
  refine ⟨r.insert e key, a', ?_, List.mem_cons_self, ha'⟩
  rw [hl', roster?_updateAccount, roster?_updateRoster, if_pos rfl, hr, Option.map_some]

end Hash

/-! ## Links -/

/-- Elements were linked one after the other, none of them twice. -/
structure Links (l : Ledger V K) (links : List (Link K)) (l' : Ledger V K) : Prop where
  undo : (l'.undo links.reverse).rosters = l.rosters
  plain : l'.plain.accounts = l.plain.accounts
  others : ∀ e ∉ links.map Link.element, l'.account? e = l.account? e
  nodup : (links.map Link.element).Nodup
  held : ∀ link ∈ links, ∃ r a, l'.roster? link.table = some r ∧ link.element ∈ r.elements ∧
    l'.held? link.element = some a
  linked : ∀ e, l.isLinked e = true → l'.isLinked e = true
  unlinked : ∀ link ∈ links, l.isLinked link.element = false

theorem Links.nil (l : Ledger V K) : l.Links [] l := by
  refine ⟨rfl, rfl, fun _ _ => rfl, List.nodup_nil, ?_, fun _ h => h, ?_⟩ <;> simp

/-- What was linked before is linked. -/
theorem Links.isLinked (h : l.Links links l') (hmem : link ∈ links) :
    l'.isLinked link.element = true := by
  obtain ⟨r, -, hr, he, -⟩ := h.held link hmem
  exact isLinked_iff.mpr ⟨_, r, hr, he⟩

/-- One more element is linked. -/
theorem Links.concat (h : l.Links links m)
    (hhash : m.hash link.table link.element link.key = some (.ok (), l')) :
    l.Links (links ++ [link]) l' := by
  obtain ⟨-, -, -, -, hfree, -⟩ := exists_of_hash hhash
  constructor
  · rw [List.reverse_append, List.reverse_singleton, List.singleton_append, Ledger.undo,
      List.foldl_cons]
    exact (rosters_undo (rosters_of_hash hhash) links.reverse).trans h.undo
  · exact (plain_of_hash hhash).trans h.plain
  · intro e he
    rw [List.map_append, List.mem_append, not_or, List.map_singleton, List.mem_singleton] at he
    exact (account?_of_hash hhash he.2).trans (h.others e he.1)
  · rw [List.map_append, List.map_singleton, List.nodup_append]
    refine ⟨h.nodup, List.nodup_singleton _, ?_⟩
    -- the elements that came before are linked already
    rintro e he f hf rfl
    obtain ⟨link', hmem, rfl⟩ := List.mem_map.mp he
    have hlinked := h.isLinked hmem
    rw [List.mem_singleton.mp hf, hfree] at hlinked
    cases hlinked
  · intro link' hmem
    rcases List.mem_append.mp hmem with hmem | hmem
    · obtain ⟨r, a, hr, he, ha⟩ := h.held link' hmem
      obtain ⟨r', hr', hsub⟩ := exists_roster_of_hash hhash hr
      obtain ⟨a', ha'⟩ := exists_held_of_hash hhash ha
      exact ⟨r', a', hr', hsub he, ha'⟩
    · obtain rfl := List.mem_singleton.mp hmem
      exact exists_linked_of_hash hhash
  · exact fun e he => isLinked_of_hash hhash (h.linked e he)
  · intro link' hmem
    rcases List.mem_append.mp hmem with hmem | hmem
    · exact h.unlinked link' hmem
    · obtain rfl := List.mem_singleton.mp hmem
      by_contra hlinked
      rw [h.linked _ (by simpa using hlinked)] at hfree
      cases hfree

/-- When all elements have left again, in whatever order, nothing but releases is different. -/
theorem Links.plain_undo (h : l.Links links m) (hperm : order.Perm links) :
    (m.undo order).plain = l.plain := by
  rw [undo_perm (hperm.trans (List.reverse_perm links).symm)]
  refine congrArg₂ Ledger.mk ?_ h.undo
  rw [accounts_undo]
  exact h.plain

end Ledger

/-! ## Stores -/

namespace Store

variable {s s₁ w : Store V K} {l m : Ledger V K} {links order : List (Link K)} {e : ElementId}
  {trace : List (Call V K × Reply V)}

/-- Elements of tables can be taken out one after the other by those who have a reference to each of
them. -/
theorem Agrees.unhashAll (hs : s.Agrees m) (hidle : s.locks = [])
    (hheld : ∀ link ∈ links, ∃ r a, m.roster? link.table = some r ∧ link.element ∈ r.elements ∧
      m.held? link.element = some a) (hnodup : (links.map Link.element).Nodup) :
    ∃ w, s.unhashAll links = .ok (links.map fun _ => (.ok (), none), w) ∧ w.Agrees (m.undo links) ∧
      w.locks = [] := by
  induction links generalizing s m with
  | nil => exact ⟨s, rfl, hs, hidle⟩
  | cons link links ih =>
    obtain ⟨r, a, hr, he, ha⟩ := hheld link List.mem_cons_self
    obtain ⟨hout, hnodup⟩ := List.nodup_cons.mp hnodup
    obtain ⟨s₁, hok, hs₁, hidle₁⟩ := hs.unhashPut hidle hr ha he
    -- the elements are different, so that the others stay where they are
    obtain ⟨w, hrest, hw, hidle'⟩ := ih hs₁ hidle₁ (fun link' hmem => by
      obtain ⟨r', a', hr', he', ha'⟩ := hheld link' (List.mem_cons_of_mem _ hmem)
      have hne : link'.element ≠ link.element :=
        fun heq => hout (heq ▸ List.mem_map_of_mem hmem)
      rw [Ledger.roster?_updateRoster]
      split
      next htable =>
        obtain rfl := Option.some.inj (hr'.symm.trans (htable ▸ hr))
        refine ⟨r'.remove link.element, a', by rw [hr, Option.map_some], ?_, ha'⟩
        rw [Roster.elements_remove, List.mem_filter]
        exact ⟨he', decide_eq_true hne⟩
      · exact ⟨r', a', hr', he', ha'⟩) hnodup
    refine ⟨w, ?_, hw, hidle'⟩
    simp only [Store.unhashAll, hok, hrest, Fault.ok_bind, Fault.pure_eq_ok, List.map_cons]

theorem keepsHash_of_unhashAll {results : List (Except Refusal Unit × Option (Element V))}
    (h : s.unhashAll links = .ok (results, w)) : s.heap.KeepsHash w.heap e := by
  induction links generalizing s results with
  | nil =>
    cases h
    exact .refl _ _
  | cons link links ih =>
    obtain ⟨⟨result, destroyed, s₁⟩, hfirst, h⟩ := Fault.bind_eq_ok_iff.mp h
    obtain ⟨⟨rest, s₂⟩, hrest, h⟩ := Fault.bind_eq_ok_iff.mp h
    cases h
    exact (keepsHash_of_unhashPut hfirst).trans (ih hrest)

/-- What links do to a store. -/
theorem Agrees.links_of_continues (hs : s.Agrees l) (hidle : s.locks = [])
    (h : s.Continues (links.map Link.event) s₁) :
    ∃ m, s₁.Agrees m ∧ s₁.locks = [] ∧ l.Links links m ∧
      ∀ e ∉ links.map Link.element, s.heap.KeepsHash s₁.heap e := by
  generalize htrace : links.map Link.event = trace at h
  induction h generalizing links with
  | refl =>
    obtain rfl := List.map_eq_nil_iff.mp htrace
    exact ⟨l, hs, hidle, .nil l, fun e _ => .refl _ e⟩
  | call _ hpermits hcall ih =>
    obtain ⟨links, last, rfl, hbefore, hlast⟩ := List.map_eq_append_iff.mp htrace
    obtain ⟨link, rfl, hlink⟩ := List.map_eq_singleton_iff.mp hlast
    obtain ⟨rfl, rfl⟩ := Prod.mk.inj hlink
    obtain ⟨m, hs₁, hidle₁, hlinks, hkeeps⟩ := ih hbefore
    obtain ⟨l', hcall', hs', hidle'⟩ := hs₁.exists_ledger_call hidle₁ hpermits hcall
    obtain ⟨⟨result, l''⟩, hhash, heq⟩ := Option.bind_eq_some_iff.mp hcall'
    obtain ⟨hresult, rfl⟩ := Prod.mk.inj (Option.some.inj heq)
    obtain rfl := Reply.result.inj hresult
    refine ⟨l'', hs', hidle', hlinks.concat hhash, fun e he => ?_⟩
    rw [List.map_append, List.mem_append, not_or, List.map_singleton, List.mem_singleton] at he
    refine (hkeeps e he.1).trans (keepsHash_of_call hcall (fun _ heq => by cases heq) ?_)
    rintro t key ⟨⟩
    exact he.2 rfl

/-- Stores whose ledgers differ in releases only differ in releases and cached hashes only. -/
theorem Agrees.rel_of_plain (hs : s.Agrees l) (hw : w.Agrees m) (hplain : m.plain = l.plain) :
    w.tables = s.tables ∧ w.heap.size = s.heap.size ∧
      ∀ e, Option.Rel Element.Alike (s.heap.get? e) (w.heap.get? e) := by
  have hwl : Store.Agrees { w.plain with locks := s.locks, journal := s.journal } l.plain :=
    (hplain ▸ hw.plain).congr rfl rfl
  have hsimilar := hs.plain.similar hwl rfl rfl
  refine ⟨hsimilar.tables, ?_, fun e => ?_⟩
  · simpa [Store.plain, Heap.size] using hsimilar.size
  · have hrel : Option.Rel Element.Similar (s.plain.heap.get? e) (w.plain.heap.get? e) :=
      hsimilar.element e
    rw [get?_plain, get?_plain] at hrel
    generalize s.heap.get? e = x? at hrel ⊢
    generalize w.heap.get? e = y? at hrel ⊢
    cases x? with
    | none => cases y? <;> cases hrel; exact .none
    | some x =>
      cases y? with
      | none => cases hrel
      | some y =>
        exact .some (Option.rel_some_some.mp hrel).alike

/-- An element that has its release and its cached hash is the same in all words. -/
theorem Agrees.get?_eq_of_rel (hs : s.Agrees l) (hw : w.Agrees m)
    (hrel : Option.Rel Element.Alike (s.heap.get? e) (w.heap.get? e))
    (haccount : m.account? e = l.account? e) (hkeeps : s.heap.KeepsHash w.heap e) :
    w.heap.get? e = s.heap.get? e := by
  cases hy : w.heap.get? e with
  | none =>
    rw [hy] at hrel
    cases hx : s.heap.get? e with
    | none => rfl
    | some x =>
      rw [hx] at hrel
      cases hrel
  | some y =>
    obtain ⟨x, hx, hhash⟩ := hkeeps y hy
    rw [hx, hy] at hrel
    obtain ⟨a, ha, hxa⟩ := hs.exists_account hx
    obtain ⟨b, hb, hyb⟩ := hw.exists_account hy
    obtain rfl := Option.some.inj (ha.symm.trans (haccount.symm.trans hb))
    have halike : x.Alike y := Option.rel_some_some.mp hrel
    rw [hx, halike, hhash, hyb.release, ← hxa.release]

/-- An element that was in no table is in none. -/
theorem Agrees.exists_of_rel (hs : s.Agrees l)
    (hrel : Option.Rel Element.Alike (s.heap.get? e) (w.heap.get? e))
    {y : Element V} (hy : w.heap.get? e = some y) (hfree : l.isLinked e = false) :
    ∃ x hash release, s.heap.get? e = some x ∧ x.owner = .nobody ∧
      w.heap.get? e = some { x with hash := hash, release := release } := by
  rw [hy] at hrel
  cases hx : s.heap.get? e with
  | none =>
    rw [hx] at hrel
    cases hrel
  | some x =>
    rw [hx] at hrel
    obtain ⟨a, -, hxa⟩ := hs.exists_account hx
    have hnobody := hxa.owner_of_not_isHashed ((hs.isLinked_eq hx).symm.trans hfree)
    have halike : x.Alike y := Option.rel_some_some.mp hrel
    exact ⟨x, y.hash, y.release, rfl, hnobody, hy.trans (congrArg some halike)⟩

/-- Elements that were linked one after the other can be taken out in any order, and all of them are
found where they should be. Afterwards everything is as before, but for the releases and the cached
hashes of these elements, which are in no table. -/
theorem Runs.unhash_undoes_hash (h : Runs trace s)
    (hlinks : s.Continues (links.map Link.event) s₁) (hperm : order.Perm links) :
    ∃ w, s₁.unhashAll order = .ok (order.map fun _ => (.ok (), none), w) ∧
      s.Restores (links.map Link.element) w := by
  obtain ⟨l, -, hs, hidle⟩ := h.exists_ledger
  obtain ⟨m, hs₁, hidle₁, hledger, hkeeps⟩ := hs.links_of_continues hidle hlinks
  obtain ⟨w, hok, hw, hidle'⟩ := hs₁.unhashAll hidle₁
    (fun link hmem => hledger.held link (hperm.mem_iff.mp hmem))
    ((hperm.map Link.element).nodup_iff.mpr hledger.nodup)
  obtain ⟨htables, hsize, hrel⟩ := hs.rel_of_plain hw (hledger.plain_undo hperm)
  have haccount : ∀ e, (m.undo order).account? e = m.account? e := fun e => by
    simp only [Ledger.account?, Ledger.accounts_undo]
  refine ⟨w, hok, htables, hidle'.trans hidle.symm, hsize, fun e he => ?_, fun e he => ?_⟩
  · exact hs.get?_eq_of_rel hw (hrel e) ((haccount e).trans (hledger.others e he))
      ((hkeeps e he).trans (keepsHash_of_unhashAll hok))
  · obtain ⟨link, hmem, rfl⟩ := List.mem_map.mp he
    obtain ⟨-, a, -, -, ha⟩ := hledger.held link hmem
    obtain ⟨y, hy, -⟩ := hw.exists_element
      ((haccount _).trans (Ledger.held?_eq_some_iff.mp ha).1)
    exact hs.exists_of_rel (hrel _) hy (hledger.unlinked link hmem)

/-- Three elements that come to the same bucket leave it from its middle, its end and its front. -/
theorem unhash_undoes_hash_of_colliding : ∃ (trace : List (Call Nat Nat × Reply Nat))
    (s s₁ w : Store Nat Nat), Runs trace s ∧
      s.Continues ([⟨0, 0, 7⟩, ⟨0, 1, 39⟩, ⟨0, 2, 71⟩].map Link.event) s₁ ∧
      [⟨0, 1, 39⟩, ⟨0, 0, 7⟩, ⟨0, 2, 71⟩].Perm [⟨0, 0, 7⟩, ⟨0, 1, 39⟩, (⟨0, 2, 71⟩ : Link Nat)] ∧
      s₁.unhashAll [⟨0, 1, 39⟩, ⟨0, 0, 7⟩, (⟨0, 2, 71⟩ : Link Nat)] =
        .ok ([(.ok (), none), (.ok (), none), (.ok (), none)], w) ∧
      s.Restores [0, 1, 2] w := by
  set making : List (Call Nat Nat) :=
    [.createTable (.usual id UInt32.ofNat .drop (.plain "")) .least, .create 7, .create 39,
      .create 71]
  set links : List (Link Nat) := [⟨0, 0, 7⟩, ⟨0, 1, 39⟩, ⟨0, 2, 71⟩]
  set made : List (Reply Nat) := [.made 0, .created 0, .created 1, .created 2]
  obtain ⟨s, h⟩ := exists_runs making made rfl
  obtain ⟨s₁, h₁⟩ := exists_runs (making ++ (links.map (Link.event (V := Nat))).map Prod.fst)
    (made ++ (links.map (Link.event (V := Nat))).map Prod.snd) rfl
  have hperm : [⟨0, 1, 39⟩, ⟨0, 0, 7⟩, ⟨0, 2, 71⟩].Perm links := .swap _ _ _
  have hcontinues : s.Continues (links.map Link.event) s₁ := h.continues h₁
  obtain ⟨w, hok, hrestores⟩ := Runs.unhash_undoes_hash h hcontinues hperm
  exact ⟨_, s, s₁, w, h, hcontinues, hperm, hok, hrestores⟩

end Store

end HashIndex
