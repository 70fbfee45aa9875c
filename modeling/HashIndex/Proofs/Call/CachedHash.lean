import HashIndex.Proofs.Call.Assertions
import HashIndex.Proofs.Call.Unhash

/-!
# Cached hashes

The hash that an element caches is written when a table claims the element, and never else. So it
outlives the place in the table: an element that was taken out keeps the hash under which it was
linked last, until a table claims it again. Each operation is looked at by what it writes, without
regard to what its words mean.

## Main definitions

* `Heap.KeepsHash`: an element keeps its cached hash if it lives on.

## Main statements

* `Store.keepsHash_of_call`: no call but one that links an element changes its cached hash.
* `Store.Agrees.eq_of_keepsHash`: stores with the same past and the same ledger are the same.
-/

namespace HashIndex

variable {V K : Type}

namespace Heap

/-- An element that lives on has the cached hash that it had. -/
def KeepsHash (h h' : Heap V) (e : ElementId) : Prop :=
  ∀ y, h'.get? e = some y → ∃ x, h.get? e = some x ∧ y.hash = x.hash

variable {h h' h'' : Heap V} {e f : ElementId} {x y : Element V}

theorem eq_of_get? (hsize : h'.size = h.size) (hsame : ∀ e, h'.get? e = h.get? e) : h' = h := by
  refine congrArg Heap.mk (Array.ext hsize fun e he he' => ?_)
  simpa [get?, he, he'] using hsame e

theorem KeepsHash.refl (h : Heap V) (e : ElementId) : h.KeepsHash h e :=
  fun y hy => ⟨y, hy, rfl⟩

theorem KeepsHash.trans (hk : h.KeepsHash h' e) (hk' : h'.KeepsHash h'' e) :
    h.KeepsHash h'' e := by
  intro z hz
  obtain ⟨y, hy, hzy⟩ := hk' z hz
  obtain ⟨x, hx, hyx⟩ := hk y hy
  exact ⟨x, hx, hzy.trans hyx⟩

theorem KeepsHash.write (hx : h.get? f = some x) (hhash : f = e → y.hash = x.hash) :
    h.KeepsHash (h.write f y) e := by
  intro z hz
  rw [get?_write hx] at hz
  split at hz
  · subst e
    obtain rfl := Option.some.inj hz
    exact ⟨x, hx, hhash rfl⟩
  · exact ⟨z, hz, rfl⟩

theorem KeepsHash.free (h : Heap V) (f e : ElementId) : h.KeepsHash (h.free f) e := by
  intro z hz
  by_cases hf : f = e
  · rw [hf, get?_free_self] at hz
    cases hz
  · rw [get?_free_of_ne hf] at hz
    exact ⟨z, hz, rfl⟩

theorem KeepsHash.of_update {g : Element V → Element V} (hupdate : h.update f g = .ok h')
    (hg : ∀ x, (g x).hash = x.hash) : h.KeepsHash h' e := by
  obtain ⟨x, hx, hupdate⟩ := Fault.bind_eq_ok_iff.mp hupdate
  cases hupdate
  exact .write (read_eq_ok_iff.mp hx) fun _ => hg x

end Heap

namespace Chain

variable {c c' : Chain} {h h' : Heap V} {e f : ElementId} {e? : Option ElementId}

theorem keepsHash_of_pushFront (hpush : c.pushFront f h = .ok (c', h')) : h.KeepsHash h' e := by
  obtain ⟨x, hx, hpush⟩ := Fault.bind_eq_ok_iff.mp hpush
  have hfirst := Heap.KeepsHash.write (e := e) (y := { x with next := c.head })
    (Heap.read_eq_ok_iff.mp hx) fun _ => rfl
  dsimp only at hpush
  split at hpush
  · cases hpush
  split at hpush
  · obtain ⟨h₁, hupdate, hpush⟩ := Fault.bind_eq_ok_iff.mp hpush
    cases hpush
    exact hfirst.trans (.of_update hupdate fun _ => rfl)
  · cases hpush
    exact hfirst

theorem keepsHash_of_unlink (hunlink : c.unlink f h = .ok (c', h')) : h.KeepsHash h' e := by
  have hlength : c.length ≠ 0 := fun hlength => unlink_ne_ok hlength _ hunlink
  obtain ⟨length, hlength⟩ := Nat.exists_eq_succ_of_ne_zero hlength
  obtain ⟨x, hx, hunlink⟩ := Fault.bind_eq_ok_iff.mp hunlink
  have hfirst := Heap.KeepsHash.write (e := e) (y := { x with prev := none, next := none })
    (Heap.read_eq_ok_iff.mp hx) fun _ => rfl
  -- which neighbours are written to depends on whether there are any
  rcases hprev : x.prev with _ | before <;> rcases hnext : x.next with _ | after <;>
    simp only [hlength, hprev, hnext, pure_bind] at hunlink
  · split at hunlink <;> cases hunlink
    exact hfirst
  · split at hunlink
    · obtain ⟨h₁, hafter, hunlink⟩ := Fault.bind_eq_ok_iff.mp hunlink
      cases hunlink
      exact hfirst.trans (.of_update hafter fun _ => rfl)
    · cases hunlink
  · obtain ⟨h₁, hbefore, hunlink⟩ := Fault.bind_eq_ok_iff.mp hunlink
    cases hunlink
    exact hfirst.trans (.of_update hbefore fun _ => rfl)
  · obtain ⟨h₁, hbefore, hunlink⟩ := Fault.bind_eq_ok_iff.mp hunlink
    obtain ⟨h₂, hafter, hunlink⟩ := Fault.bind_eq_ok_iff.mp hunlink
    cases hunlink
    exact (hfirst.trans (.of_update hbefore fun _ => rfl)).trans (.of_update hafter fun _ => rfl)

theorem keepsHash_of_popFront (hpop : c.popFront h = .ok (e?, c', h')) : h.KeepsHash h' e := by
  unfold popFront at hpop
  split at hpop
  · cases hpop
    exact .refl _ _
  · obtain ⟨⟨c₁, h₁⟩, hunlink, hpop⟩ := Fault.bind_eq_ok_iff.mp hpop
    cases hpop
    exact keepsHash_of_unlink hunlink

end Chain

namespace Store

variable {s s' : Store V K} {t : TableId} {i number steps : Nat} {e f : ElementId} {key : K}
  {taken : List ElementId} {c : Call V K} {reply : Reply V}

/-! ## One element -/

theorem heap_unlock (s : Store V K) (lock : Lock) : (s.unlock lock).heap = s.heap := rfl

theorem heap_settle (s : Store V K) : s.settle.heap = s.heap := rfl

theorem keepsHash_of_updateElement {g : Element V → Element V}
    (h : s.updateElement f g = .ok s') (hg : ∀ x, (g x).hash = x.hash) :
    s.heap.KeepsHash s'.heap e := by
  obtain ⟨heap, hupdate, h⟩ := Fault.bind_eq_ok_iff.mp h
  cases h
  exact .of_update hupdate hg

/-- A change that may fail keeps a hash if it is that of another element. -/
theorem keepsHash_of_updateElementM {g : Element V → Except Fault (Element V)}
    (h : s.updateElementM f g = .ok s') (hg : f = e → ∀ x y, g x = .ok y → y.hash = x.hash) :
    s.heap.KeepsHash s'.heap e := by
  obtain ⟨heap, hupdate, h⟩ := Fault.bind_eq_ok_iff.mp h
  cases h
  obtain ⟨x, hx, hupdate⟩ := Fault.bind_eq_ok_iff.mp hupdate
  obtain ⟨y, hy, hupdate⟩ := Fault.bind_eq_ok_iff.mp hupdate
  cases hupdate
  exact .write (Heap.read_eq_ok_iff.mp hx) fun hf => hg hf x y hy

theorem keepsHash_of_hold (h : s.hold f = .ok s') : s.heap.KeepsHash s'.heap e :=
  keepsHash_of_updateElement h fun _ => rfl

theorem keepsHash_of_holdIf {wanted : Bool} (h : s.holdIf wanted f = .ok s') :
    s.heap.KeepsHash s'.heap e := by
  unfold holdIf at h
  split at h
  · exact keepsHash_of_hold h
  · cases h
    exact .refl _ _

theorem keepsHash_of_put {gone : Option (Element V)} (h : s.put f = .ok (gone, s')) :
    s.heap.KeepsHash s'.heap e := by
  obtain ⟨x, hx, h⟩ := Fault.bind_eq_ok_iff.mp h
  dsimp only at h
  split at h
  · cases h
  · split at h
    · cases h
    · split at h <;> cases h
      exact .free _ _ _
  · cases h
    exact .write (Heap.read_eq_ok_iff.mp hx) fun _ => rfl

/-! ## Membership -/

theorem heap_of_select {hash : UInt32} (h : s.select t hash = .ok (i, s')) : s'.heap = s.heap := by
  obtain ⟨table, -, h⟩ := Fault.bind_eq_ok_iff.mp h
  cases h
  rfl

theorem heap_of_lock {lock : Lock} (h : s.lock lock = .ok s') : s'.heap = s.heap := by
  obtain ⟨-, rfl⟩ := lock_eq_ok_iff.mp h
  rfl

theorem heap_of_addEntry (h : s.addEntry t = .ok s') : s'.heap = s.heap := by
  obtain ⟨table, -, h⟩ := Fault.bind_eq_ok_iff.mp h
  cases h
  rfl

theorem heap_of_removeEntry (h : s.removeEntry t = .ok s') : s'.heap = s.heap := by
  obtain ⟨table, -, h⟩ := Fault.bind_eq_ok_iff.mp h
  split at h <;> cases h
  rfl

theorem keepsHash_of_link {release : Release} (h : s.link t i f release = .ok s') :
    s.heap.KeepsHash s'.heap e := by
  obtain ⟨s₁, hrelease, h⟩ := Fault.bind_eq_ok_iff.mp h
  obtain ⟨s₂, hhold, h⟩ := Fault.bind_eq_ok_iff.mp h
  obtain ⟨c, -, h⟩ := Fault.bind_eq_ok_iff.mp h
  obtain ⟨⟨c', heap⟩, hpush, h⟩ := Fault.bind_eq_ok_iff.mp h
  obtain ⟨s₃, hadd, h⟩ := Fault.bind_eq_ok_iff.mp h
  have hpublish : s₃.heap.KeepsHash s'.heap e := by
    refine keepsHash_of_updateElementM h fun _ x y hy => ?_
    unfold Element.publish at hy
    split at hy <;> cases hy
    rfl
  rw [heap_of_addEntry hadd] at hpublish
  refine (keepsHash_of_updateElementM hrelease fun _ x y hy => ?_).trans
    ((keepsHash_of_hold hhold).trans ((Chain.keepsHash_of_pushFront hpush).trans hpublish))
  unfold Element.setRelease at hy
  split at hy <;> cases hy
  rfl

/-- Linking an element does not touch the hashes of others. -/
theorem keepsHash_of_hash {result : Except Refusal Unit} (hne : f ≠ e)
    (h : s.hash t f key = .ok (result, s')) : s.heap.KeepsHash s'.heap e := by
  obtain ⟨strategy, -, h⟩ := Fault.bind_eq_ok_iff.mp h
  obtain ⟨x, hx, h⟩ := Fault.bind_eq_ok_iff.mp h
  split at h
  · cases h
    exact .refl _ _
  split at h
  · cases h
    exact .refl _ _
  next claimed _ =>
    have hclaim : s.heap.KeepsHash (s.heap.write f claimed) e :=
      .write (Heap.read_eq_ok_iff.mp hx) fun hf => absurd hf hne
    obtain ⟨s₁, hset, h⟩ := Fault.bind_eq_ok_iff.mp h
    obtain ⟨⟨i, s₂⟩, hselect, h⟩ := Fault.bind_eq_ok_iff.mp h
    obtain ⟨s₃, hlock, h⟩ := Fault.bind_eq_ok_iff.mp h
    obtain ⟨c, -, h⟩ := Fault.bind_eq_ok_iff.mp h
    obtain ⟨duplicate, -, h⟩ := Fault.bind_eq_ok_iff.mp h
    have hlocked : s.heap.KeepsHash s₃.heap e := by
      rw [heap_of_lock hlock, heap_of_select hselect]
      exact hclaim.trans (keepsHash_of_updateElementM hset fun hf => absurd hf hne)
    split at h
    · obtain ⟨s₄, habandon, h⟩ := Fault.bind_eq_ok_iff.mp h
      cases h
      rw [heap_unlock]
      exact hlocked.trans (keepsHash_of_updateElement habandon fun _ => rfl)
    · obtain ⟨s₄, hlink, h⟩ := Fault.bind_eq_ok_iff.mp h
      cases h
      rw [heap_unlock]
      exact hlocked.trans (keepsHash_of_link hlink)

theorem keepsHash_of_lookup {found : Except Refusal ElementId}
    (h : s.lookup t key = .ok (found, s')) : s.heap.KeepsHash s'.heap e := by
  obtain ⟨strategy, -, h⟩ := Fault.bind_eq_ok_iff.mp h
  obtain ⟨⟨i, s₁⟩, hselect, h⟩ := Fault.bind_eq_ok_iff.mp h
  obtain ⟨s₂, hlock, h⟩ := Fault.bind_eq_ok_iff.mp h
  obtain ⟨c, -, h⟩ := Fault.bind_eq_ok_iff.mp h
  obtain ⟨found?, -, h⟩ := Fault.bind_eq_ok_iff.mp h
  have hsame : s₂.heap = s.heap := (heap_of_lock hlock).trans (heap_of_select hselect)
  split at h
  · cases h
    rw [heap_unlock, hsame]
    exact .refl _ _
  · obtain ⟨s₃, hhold, h⟩ := Fault.bind_eq_ok_iff.mp h
    cases h
    rw [heap_unlock, ← hsame]
    exact keepsHash_of_hold hhold

theorem keepsHash_of_detach (h : s.detach t i f = .ok s') : s.heap.KeepsHash s'.heap e := by
  obtain ⟨c, -, h⟩ := Fault.bind_eq_ok_iff.mp h
  obtain ⟨⟨c', heap⟩, hunlink, h⟩ := Fault.bind_eq_ok_iff.mp h
  obtain ⟨s₁, hremove, h⟩ := Fault.bind_eq_ok_iff.mp h
  have habandon : s₁.heap.KeepsHash s'.heap e := keepsHash_of_updateElement h fun _ => rfl
  rw [heap_of_removeEntry hremove] at habandon
  exact (Chain.keepsHash_of_unlink hunlink).trans habandon

theorem keepsHash_of_unhash {result : Except Refusal Unit} (h : s.unhash t f = .ok (result, s')) :
    s.heap.KeepsHash s'.heap e := by
  obtain ⟨x, -, h⟩ := Fault.bind_eq_ok_iff.mp h
  split at h
  · cases h
    exact .refl _ _
  obtain ⟨⟨i, s₁⟩, hselect, h⟩ := Fault.bind_eq_ok_iff.mp h
  obtain ⟨s₂, hlock, h⟩ := Fault.bind_eq_ok_iff.mp h
  obtain ⟨y, -, h⟩ := Fault.bind_eq_ok_iff.mp h
  have hsame : s₂.heap = s.heap := (heap_of_lock hlock).trans (heap_of_select hselect)
  split at h
  · cases h
  obtain ⟨table, -, h⟩ := Fault.bind_eq_ok_iff.mp h
  split at h
  · cases h
  obtain ⟨s₃, hdetach, h⟩ := Fault.bind_eq_ok_iff.mp h
  cases h
  rw [heap_unlock, ← hsame]
  exact keepsHash_of_detach hdetach

theorem keepsHash_of_unhashPut {result : Except Refusal Unit} {gone : Option (Element V)}
    (h : s.unhashPut t f = .ok (result, gone, s')) : s.heap.KeepsHash s'.heap e := by
  obtain ⟨⟨result', s₁⟩, hunhash, h⟩ := Fault.bind_eq_ok_iff.mp h
  have hfirst : s.heap.KeepsHash s₁.heap e := keepsHash_of_unhash hunhash
  cases result' with
  | error refusal =>
    cases h
    exact hfirst
  | ok =>
    obtain ⟨⟨destroyed, s₂⟩, hput, h⟩ := Fault.bind_eq_ok_iff.mp h
    cases h
    exact hfirst.trans (keepsHash_of_put hput)

/-! ## Traversals -/

theorem keepsHash_of_treat {choice : Choice} (h : s.treat t i f choice = .ok s') :
    s.heap.KeepsHash s'.heap e := by
  obtain ⟨s₁, hhold, h⟩ := Fault.bind_eq_ok_iff.mp h
  split at h
  · exact (keepsHash_of_holdIf hhold).trans (keepsHash_of_detach h)
  · cases h
    exact keepsHash_of_holdIf hhold

/-- A walk changes no cached hash. -/
theorem keepsHash_of_walkFrom {choose : Nat → V → Choice} {cursor : Option ElementId}
    {walk : Walk V K} (h : walkFrom t i choose steps cursor number s = .ok walk) :
    s.heap.KeepsHash walk.store.heap e := by
  induction steps generalizing s cursor number walk with
  | zero =>
    cases cursor <;> cases h
    exact .refl _ _
  | succ steps ih =>
    cases cursor with
    | none =>
      cases h
      exact .refl _ _
    | some f =>
      obtain ⟨next, -, h⟩ := Fault.bind_eq_ok_iff.mp h
      obtain ⟨x, -, h⟩ := Fault.bind_eq_ok_iff.mp h
      obtain ⟨s₁, htreat, h⟩ := Fault.bind_eq_ok_iff.mp h
      obtain ⟨rest, hrest, h⟩ := Fault.bind_eq_ok_iff.mp h
      cases h
      have hkeeps := (keepsHash_of_treat (e := e) htreat).trans (ih hrest)
      exact hkeeps

theorem keepsHash_of_walkBucket {choose : Nat → V → Choice} {walk : Walk V K}
    (h : s.walkBucket t i number choose = .ok walk) : s.heap.KeepsHash walk.store.heap e := by
  obtain ⟨s₁, hlock, h⟩ := Fault.bind_eq_ok_iff.mp h
  obtain ⟨c, -, h⟩ := Fault.bind_eq_ok_iff.mp h
  obtain ⟨walk', hwalk, h⟩ := Fault.bind_eq_ok_iff.mp h
  cases h
  rw [heap_unlock, ← heap_of_lock hlock]
  exact keepsHash_of_walkFrom hwalk

theorem keepsHash_of_readEach {choose : Nat → V → Bool} {elements : List (ElementId × Element V)}
    {visits : List (Visit V)} (h : readEach choose elements number s = .ok (visits, s')) :
    s.heap.KeepsHash s'.heap e := by
  induction elements generalizing s number visits with
  | nil =>
    cases h
    exact .refl _ _
  | cons entry elements ih =>
    obtain ⟨s₁, hhold, h⟩ := Fault.bind_eq_ok_iff.mp h
    obtain ⟨⟨rest, s₂⟩, hrest, h⟩ := Fault.bind_eq_ok_iff.mp h
    cases h
    exact (keepsHash_of_holdIf hhold).trans (ih hrest)

theorem keepsHash_of_readBuckets {choose : Nat → V → Bool} {buckets : List Nat}
    {before visits : List (List (Visit V))}
    (h : readBuckets t choose buckets before number s = .ok (visits, s')) :
    s.heap.KeepsHash s'.heap e := by
  induction buckets generalizing s before number with
  | nil =>
    cases h
    exact .refl _ _
  | cons i buckets ih =>
    obtain ⟨⟨first, s₁⟩, hread, h⟩ := Fault.bind_eq_ok_iff.mp h
    obtain ⟨s₂, hlock, hread⟩ := Fault.bind_eq_ok_iff.mp hread
    obtain ⟨c, -, hread⟩ := Fault.bind_eq_ok_iff.mp hread
    obtain ⟨elements, -, hread⟩ := Fault.bind_eq_ok_iff.mp hread
    obtain ⟨⟨visits, s₃⟩, heach, hread⟩ := Fault.bind_eq_ok_iff.mp hread
    cases hread
    have hrest : (s₃.unlock ⟨t, i, false⟩).heap.KeepsHash s'.heap e := ih h
    rw [← heap_of_lock hlock]
    exact (keepsHash_of_readEach heach).trans hrest

theorem heap_of_chainLengths {buckets before lengths : List Nat}
    (h : chainLengths t buckets before s = .ok (lengths, s')) : s'.heap = s.heap := by
  induction buckets generalizing s before with
  | nil =>
    cases h
    rfl
  | cons i buckets ih =>
    obtain ⟨⟨length, s₁⟩, hlength, h⟩ := Fault.bind_eq_ok_iff.mp h
    obtain ⟨s₂, hlock, hlength⟩ := Fault.bind_eq_ok_iff.mp hlength
    obtain ⟨c, -, hlength⟩ := Fault.bind_eq_ok_iff.mp hlength
    cases hlength
    have hrest : s'.heap = (s₂.unlock ⟨t, i, false⟩).heap := ih h
    rw [hrest, heap_unlock, heap_of_lock hlock]

theorem keepsHash_of_popAll (h : popAll t i steps s = .ok (taken, s')) :
    s.heap.KeepsHash s'.heap e := by
  induction steps generalizing s taken with
  | zero => cases h
  | succ steps ih =>
    obtain ⟨c, -, h⟩ := Fault.bind_eq_ok_iff.mp h
    obtain ⟨⟨f?, c', heap⟩, hpop, h⟩ := Fault.bind_eq_ok_iff.mp h
    have hfirst : s.heap.KeepsHash heap e := Chain.keepsHash_of_popFront hpop
    cases f? with
    | none =>
      cases h
      exact .refl _ _
    | some f =>
      obtain ⟨s₁, habandon, h⟩ := Fault.bind_eq_ok_iff.mp h
      obtain ⟨s₂, hremove, h⟩ := Fault.bind_eq_ok_iff.mp h
      obtain ⟨⟨rest, s₃⟩, hrest, h⟩ := Fault.bind_eq_ok_iff.mp h
      cases h
      have hlast : s₂.heap.KeepsHash s'.heap e := ih hrest
      rw [heap_of_removeEntry hremove] at hlast
      exact hfirst.trans ((keepsHash_of_updateElement habandon fun _ => rfl).trans hlast)

theorem keepsHash_of_drainBucket (h : s.drainBucket t i = .ok (taken, s')) :
    s.heap.KeepsHash s'.heap e := by
  obtain ⟨s₁, hlock, h⟩ := Fault.bind_eq_ok_iff.mp h
  obtain ⟨c, -, h⟩ := Fault.bind_eq_ok_iff.mp h
  obtain ⟨⟨released, s₂⟩, hpop, h⟩ := Fault.bind_eq_ok_iff.mp h
  cases h
  rw [heap_unlock, ← heap_of_lock hlock]
  exact keepsHash_of_popAll hpop

/-! ## All calls -/

/-- An element keeps its cached hash at every call, except for one that makes the element and those
that link it, or try to. -/
theorem keepsHash_of_call (h : s.call c = .ok (reply, s')) (hcreate : ∀ value, c ≠ .create value)
    (hhash : ∀ t key, c ≠ .hash t e key) : s.heap.KeepsHash s'.heap e := by
  cases c <;> simp only [call, Fault.bind_eq_ok_iff, Fault.pure_eq_ok_iff, Except.ok.injEq,
    Prod.mk.injEq, Prod.exists] at h
  case create value => exact absurd rfl (hcreate value)
  case hold f =>
    obtain ⟨s₁, hhold, -, rfl⟩ := h
    rw [heap_settle]
    exact keepsHash_of_hold hhold
  case put f =>
    obtain ⟨gone, s₁, hput, -, rfl⟩ := h
    rw [heap_settle]
    exact keepsHash_of_put hput
  case createTable strategy capacity =>
    obtain ⟨-, rfl⟩ := h
    have hsame : (s.createTable strategy capacity).2.settle.heap = s.heap := by
      dsimp only [createTable, heap_settle]
      split <;> rfl
    rw [hsame]
    exact .refl _ _
  case freeTable t =>
    obtain ⟨-, rfl⟩ := h
    exact .refl _ _
  case hash t f key =>
    obtain ⟨result, s₁, hok, -, rfl⟩ := h
    rw [heap_settle]
    refine keepsHash_of_hash ?_ hok
    rintro rfl
    exact hhash t key rfl
  case unhash t f =>
    obtain ⟨result, s₁, hok, -, rfl⟩ := h
    rw [heap_settle]
    exact keepsHash_of_unhash hok
  case lookup t key =>
    obtain ⟨found, s₁, hok, -, rfl⟩ := h
    rw [heap_settle]
    exact keepsHash_of_lookup hok
  case count t =>
    obtain ⟨table, -, -, rfl⟩ := h
    exact .refl _ _
  case lengths t =>
    obtain ⟨buckets, -, lengths, s₁, hok, -, rfl⟩ := h
    rw [heap_settle, heap_of_chainLengths hok]
    exact .refl _ _
  case walk t i number choose =>
    obtain ⟨walk, hok, -, rfl⟩ := h
    rw [heap_settle]
    exact keepsHash_of_walkBucket hok
  case survey t choose =>
    obtain ⟨buckets, -, visits, s₁, hok, -, rfl⟩ := h
    rw [heap_settle]
    exact keepsHash_of_readBuckets hok
  case drain t i =>
    obtain ⟨released, s₁, hok, -, rfl⟩ := h
    rw [heap_settle]
    exact keepsHash_of_drainBucket hok

/-! ## Stores with the same past -/

/-- Two stores that agree with one ledger are the same if all their elements keep the hashes that
they had in one heap. -/
theorem Agrees.eq_of_keepsHash {w : Store V K} {l : Ledger V K} {h : Heap V} (hs : s.Agrees l)
    (hw : w.Agrees l) (hkeeps : ∀ e, h.KeepsHash s.heap e)
    (hkeeps' : ∀ e, h.KeepsHash w.heap e) : w.heap = s.heap ∧ w.tables = s.tables := by
  have hw' : Store.Agrees { w with locks := s.locks, journal := s.journal } l := hw.congr rfl rfl
  have hsimilar := hs.similar hw' rfl rfl
  refine ⟨Heap.eq_of_get? hsimilar.size fun e => ?_, hsimilar.tables⟩
  have hrel : Option.Rel Element.Similar (s.heap.get? e) (w.heap.get? e) := hsimilar.element e
  cases hx : s.heap.get? e with
  | none =>
    rw [hx] at hrel
    cases hy : w.heap.get? e with
    | none => rfl
    | some y =>
      rw [hy] at hrel
      cases hrel
  | some x =>
    rw [hx] at hrel
    cases hy : w.heap.get? e with
    | none =>
      rw [hy] at hrel
      cases hrel
    | some y =>
      rw [hy] at hrel
      obtain ⟨z, hz, hhash⟩ := hkeeps e x hx
      obtain ⟨z', hz', hhash'⟩ := hkeeps' e y hy
      obtain rfl := Option.some.inj (hz.symm.trans hz')
      rw [(Option.rel_some_some.mp hrel).words, hhash', ← hhash]

end Store

end HashIndex
