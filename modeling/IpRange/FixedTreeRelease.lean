import IpRange.RangeStore
import IpRange.DraftStorage
import IpRange.FixedTreeTraversal

/-!
Releasing a whole tree, observed page by page. The walk runs on a store that writes
down each page it gave up and refuses to read such a page again, so a run that goes
through has touched no page behind its back.
-/

namespace IpRange

open List hiding get modify

variable {σ α : Type}

structure Traced (σ : Type) where
  inner : σ
  released : List Nat

namespace Traced

def lift : EStateM Error σ α → EStateM Error (Traced σ) α :=
  onPart inner fun state inner => { state with inner }

instance [Store σ] : Store (Traced σ) where
  targetTxn state := Store.targetTxn state.inner
  pageLimit state := Store.pageLimit state.inner
  inspectPage state page :=
    if page ∈ state.released then .error (.corrupt "released page was read")
    else Store.inspectPage state.inner page
  allocate := lift Store.allocate
  updatePage page program := lift (Store.updatePage page program)
  copyPage source destination program := lift (Store.copyPage source destination program)
  discardPrivate page := lift (Store.discardPrivate page)

def release (release : Nat → EStateM Error σ Unit) (page : Nat) : EStateM Error (Traced σ) Unit := do
  lift (release page)
  modify fun state => { state with released := state.released ++ [page] }

def Erases (observed : EStateM Error (Traced σ) α) (plain : EStateM Error σ α) : Prop :=
  ∀ state value reached, observed state = .ok value reached →
    plain state.inner = .ok value reached.inner

theorem erases_pure (value : α) : Erases (pure value : EStateM Error (Traced σ) α) (pure value) := by
  intro state result reached run
  cases run
  rfl

theorem erases_throw (error : Error) (plain : EStateM Error σ α) :
    Erases (throw error : EStateM Error (Traced σ) α) plain := by
  intro state result reached run
  cases run

theorem erases_bind {β : Type} {observed : EStateM Error (Traced σ) α} {plain : EStateM Error σ α}
    {next : α → EStateM Error (Traced σ) β} {plainNext : α → EStateM Error σ β}
    (first : Erases observed plain) (second : ∀ value, Erases (next value) (plainNext value)) :
    Erases (observed >>= next) (plain >>= plainNext) := by
  intro state result reached run
  simp only [bind, EStateM.bind] at run ⊢
  cases outcome : observed state with
  | error error between =>
    rw [outcome] at run
    cases run
  | ok value between =>
    rw [outcome] at run
    rw [first state value between outcome]
    exact second value between result reached run

theorem erases_get {β : Type} {next : Traced σ → EStateM Error (Traced σ) β}
    {plainNext : σ → EStateM Error σ β} (second : ∀ state, Erases (next state) (plainNext state.inner)) :
    Erases (get >>= next) (get >>= plainNext) := fun state result reached run =>
  second state state result reached run

theorem erases_release (release : Nat → EStateM Error σ Unit) (page : Nat) :
    Erases (Traced.release release page) (release page) := by
  intro state result reached run
  simp only [Traced.release, lift, onPart, bind, EStateM.bind] at run
  cases outcome : release page state.inner with
  | error error between =>
    rw [outcome] at run
    cases run
  | ok value between =>
    rw [outcome] at run
    cases run
    rfl

theorem erases_viewPage [Store σ] (page : Nat) (inspect : Page → Except Error α) :
    Erases (FixedTree.viewPage page inspect : EStateM Error (Traced σ) α)
      (FixedTree.viewPage page inspect) := by
  intro state result reached run
  simp only [FixedTree.viewPage, get_bind_apply] at run ⊢
  simp only [bind, EStateM.bind, Store.inspectPage] at run ⊢
  by_cases gone : page ∈ state.released
  · rw [if_pos gone] at run
    cases run
  · rw [if_neg gone] at run
    cases found : Store.inspectPage state.inner page with
    | error error =>
      rw [found] at run
      cases run
    | ok content =>
      rw [found] at run
      simp only [liftResult] at run ⊢
      cases answer : inspect content with
      | error error =>
        rw [answer] at run
        cases run
      | ok value =>
        rw [answer] at run
        cases run
        rfl

end Traced

namespace FixedTree

open SlottedPage Traced

variable {Key Leaf : Type} {codec : Codec Key Leaf}

section Erasure

variable [Store σ] (codec) (release : Nat → EStateM Error σ Unit)

theorem erases_advance (frames : List WalkFrame) :
    Erases (Walker.advance codec (Traced.release release) frames)
      (Walker.advance codec release frames) := by
  induction frames with
  | nil => exact erases_pure none
  | cons frame rest ih =>
    rw [Walker.advance, Walker.advance]
    refine erases_get fun state => ?_
    by_cases more : frame.nextChild < frame.childCount
    · rw [if_pos more, if_pos more]
      exact erases_bind (erases_viewPage _ _) fun child => erases_pure _
    · rw [if_neg more, if_neg more]
      exact erases_bind (erases_release release _) fun _ => ih

theorem erases_visit (walker : Walker) :
    Erases (walker.visit codec (Traced.release release)) (walker.visit codec release) := by
  rw [Walker.visit, Walker.visit]
  refine erases_get fun state => erases_bind (erases_viewPage _ _) fun found => ?_
  obtain ⟨header, child⟩ := found
  cases child with
  | some child =>
    by_cases shallow : walker.stack.length < maxTreeLevel
    · simp only [if_pos shallow]
      exact erases_pure _
    · simp only [if_neg shallow]
      exact erases_throw _ _
  | none => exact erases_bind (erases_release release _) fun _ => erases_advance codec release _

theorem erases_run (turns : Nat) (walker : Walker) :
    Erases (Walker.run codec (Traced.release release) turns walker)
      (Walker.run codec release turns walker) := by
  induction turns generalizing walker with
  | zero => exact erases_throw _ _
  | succ turns ih =>
    rw [Walker.run, Walker.run]
    refine erases_bind (erases_visit codec release walker) fun next => ?_
    cases next with
    | none => exact erases_pure ()
    | some next => exact ih next

theorem erases_walk (root : Nat) :
    Erases (walk codec (Traced.release release) root) (walk codec release root) := by
  rw [walk, walk]
  by_cases empty : root = 0
  · rw [if_pos empty, if_pos empty]
    exact erases_pure ()
  · rw [if_neg empty, if_neg empty]
    exact erases_get fun state => erases_run codec release _ _

end Erasure

section Observed

variable [Store σ] {txn : Nat} {release : Nat → EStateM Error σ Unit} {P : Page → Prop}
  {fail : Error → σ → Prop} {World : List Nat → List Nat → Heap → σ → Prop} {heap : Heap}

structure Observed (codec : Codec Key Leaf) (World : List Nat → List Nat → Heap → σ → Prop)
    (heap : Heap) (tree done pages : List Nat) (now : Heap) (state : Traced σ) : Prop where
  world : World done pages now state.inner
  noted : state.released = done
  ordered : Postordered codec heap done
  still : ∀ address ∈ pages, now address = heap address
  gone : ∀ address ∈ done, now address = none
  split : (done ++ pages).Perm tree

def ReleaseFails (release : Nat → EStateM Error σ Unit) (tree : List Nat) (error : Error) (after : σ) :
    Prop :=
  ∃ address ∈ tree, ∃ before, release address before = .error error after

theorem Releasing.observed (releasing : Releasing codec txn release P fail World) (tree : List Nat) :
    Releasing codec txn (Traced.release release) P
      (fun error reached => ReleaseFails release tree error reached.inner ∧ fail error reached.inner)
      (Observed codec World heap tree) where
  perm {done pages other now state} observed same := by
    obtain ⟨world, noted, ordered, still, gone, split⟩ := observed
    refine ⟨releasing.perm world same, noted, ordered, ?_, gone, ?_⟩
    · exact fun address member => still address (same.mem_iff.mp member)
    · exact (same.append_left done).trans split
  nodup observed := releasing.nodup observed.world
  views {done pages now state} observed := by
    have views := releasing.views observed.world
    refine ⟨views.selected, views.limit, views.bounds, ?_⟩
    intro address page stored
    have unreleased : address ∉ state.released := by
      intro member
      rw [observed.noted] at member
      rw [observed.gone address member] at stored
      cases stored
    have found : Store.inspectPage state.inner address = .ok page := views.found stored
    exact (if_neg unreleased).trans found
  step {done pages now state address page} observed stored marked below := by
    obtain ⟨world, noted, ordered, still, gone, split⟩ := observed
    have outside := (nodup_cons.mp (releasing.nodup world)).1
    have inTree : address ∈ tree := split.mem_iff.mp (by simp)
    have was : heap address = some page := (still address (by simp)).symm.trans stored
    rw [Traced.release, ensures_bind, Traced.lift, ensures_onPart]
    refine (releasing.step world stored marked below).outcome.mono ?_ ?_
    · rintro _ reached ⟨-, next⟩
      rw [ensures_modify]
      refine ⟨next, by rw [noted], ordered.snoc ?_, ?_, ?_, by simpa using split⟩
      · intro content isContent child member
        rw [was, Option.some.injEq] at isContent
        subst isContent
        exact below child member
      · intro other member
        rw [update_of_outside now outside other member]
        exact still other (mem_cons_of_mem _ member)
      · intro other member
        by_cases same : other = address
        · rw [same, Function.update_self]
        · rw [Function.update_of_ne same]
          exact gone other ((mem_append.mp member).resolve_right (by simpa using same))
    · rintro error reached ⟨failed, known⟩
      exact ⟨⟨address, inTree, state.inner, failed⟩, known⟩

/-- An observed release: the plain run does the same, every page was given up exactly once and
behind the pages it points at, and no page was read later. -/
def ReleasedOnce (codec : Codec Key Leaf) (release : Nat → EStateM Error σ Unit)
    (program : EStateM Error σ Unit) (root : Nat) (heap : Heap) (pages : List Nat) (state : σ)
    (post : List Nat → σ → Prop) (fail : Error → σ → Prop) : Prop :=
  Ensures (walk codec (Traced.release release) root) ⟨state, []⟩ (fun _ reached =>
    program state = .ok () reached.inner ∧ reached.released.Perm pages ∧
      reached.released.Nodup ∧ Postordered codec heap reached.released ∧
      post reached.released reached.inner) fun error reached => fail error reached.inner

theorem releasedOnce (lawful : LawfulCodec codec)
    (releasing : Releasing codec txn release P fail World) {root : Nat}
    {entries : List (Entry codec)} {pages : List Nat} {state : σ} (world : World [] pages heap state)
    (tree : RootAt heap txn root entries pages)
    (given : ∀ address ∈ pages, ∀ page, heap address = some page → P page) :
    ReleasedOnce codec release (walk codec release root) root heap pages state
      (fun released reached => ∃ after, World released [] after reached)
      (fun error reached => ReleaseFails release pages error reached ∧ fail error reached) := by
  have observed : Observed codec World heap pages [] pages heap ⟨state, []⟩ := by
    refine ⟨world, rfl, ?_, fun _ _ => rfl, by simp, List.Perm.refl _⟩
    intro before parent after shape
    simp at shape
  refine (walk_releases lawful (releasing.observed pages) [] observed tree given).outcome.mono ?_
    fun error _ failed => failed.2
  rintro _ reached ⟨run, more, after, order, world_, noted, ordered, -, -, -⟩
  have plain := erases_walk codec release root ⟨state, []⟩ () reached run
  rw [nil_append] at noted ordered world_
  rw [← noted] at ordered world_ order
  exact ⟨plain, order, order.nodup_iff.mpr (releasing.nodup world), ordered, after, world_⟩

end Observed

section Stores

variable {heap : Heap} {root : Nat} {entries : List (Entry codec)} {pages : List Nat}

theorem released_by_laws [Store σ] {laws : StoreLaws σ} (lawful : LawfulCodec codec)
    {release : Nat → EStateM Error σ Unit} {P : Page → Prop} {state : σ}
    (releases : Releases laws release P) (owns : laws.Owns state heap)
    (tree : RootAt heap laws.txn root entries pages) (nodup : pages.Nodup)
    (given : ∀ address ∈ pages, ∀ page, heap address = some page → P page) :
    ReleasedOnce codec release (walk codec release root) root heap pages state
      (fun _ reached => laws.Owns reached fun address => if address ∈ pages then none else heap address)
      (ReleaseFails release pages) := by
  have held : ∀ address ∈ pages, heap address ≠ none := by
    intro address member
    rcases tree with ⟨_, _, none_⟩ | ⟨_, _, _, whole, _, _, rfl⟩
    · simp [none_] at member
    · obtain ⟨_, _, _, _, stored⟩ := whole.pages address member
      rw [stored]
      exact Option.some_ne_none _
  have owning : Owning laws (fun address => if address ∈ pages then none else heap address) pages heap
      state := ⟨owns, nodup, held, fun _ => rfl⟩
  refine (releasedOnce lawful (releases.releasing _) owning tree given).mono ?_
    fun error _ failed => failed.1
  rintro _ reached ⟨run, order, once, ordered, after, owning⟩
  refine ⟨run, order, once, ordered, ?_⟩
  have rest : (fun address => if address ∈ pages then none else heap address) = after := by
    funext address
    simpa using owning.framed address
  rw [rest]
  exact owning.owns

structure Discarding (start : DraftStore) (stack done pages : List Nat) (heap : Heap)
    (store : DraftStore) : Prop where
  txn : store.txnId = start.txnId
  limit : store.pageCount = start.pageCount
  tag : store.tag = start.tag
  small : start.pageCount ≤ 2 ^ 32
  stacked : DraftStore.PrivateStack store.mapping store.txnId store.privateHead (done.reverse ++ stack)
  nodup : pages.Nodup
  apart : ∀ address ∈ pages, address ∉ done.reverse ++ stack
  dirty : ∀ address ∈ pages, start.tag address ≠ 0
  held : ∀ address page, heap address = some page → 2 ≤ address ∧ address < store.pageCount ∧
    store.mapping address = page
  frame : ∀ address, address ∉ done → store.mapping address = start.mapping address

theorem discarding_releasing [PageSupply] (start : DraftStore) (stack : List Nat) :
    Releasing codec start.txnId (Store.discardPrivate : Nat → EStateM Error DraftStore Unit)
      (fun page => page.bornTxn = start.txnId) (fun _ _ => False) (Discarding start stack) where
  perm {done pages other heap store} discarding same := by
    obtain ⟨txn, limit, tag, small, stacked, nodup, apart, dirty, held, frame⟩ := discarding
    exact ⟨txn, limit, tag, small, stacked, same.nodup_iff.mpr nodup,
      fun address member => apart address (same.mem_iff.mp member),
      fun address member => dirty address (same.mem_iff.mp member), held, frame⟩
  nodup discarding := discarding.nodup
  views {done pages heap store} discarding := by
    refine ⟨discarding.txn, ?_, ?_, ?_⟩
    · have bound := discarding.small
      rw [← discarding.limit] at bound
      exact bound
    · intro address page stored
      obtain ⟨low, high, -⟩ := discarding.held address page stored
      exact ⟨low, high⟩
    · intro address page stored
      obtain ⟨low, high, content⟩ := discarding.held address page stored
      have bounds : DraftStore.requirePage address store.pageCount = .ok () := if_neg (by omega)
      simp only [PageSource.viewPage, Store.inspectPage, DraftStore.inspectPage, bounds, bind,
        Except.bind, content]
  step {done pages heap store address page} discarding stored born _ := by
    obtain ⟨txn, limit, tag, small, stacked, nodup, apart, dirty, held, frame⟩ := discarding
    obtain ⟨outside, rest⟩ := nodup_cons.mp nodup
    obtain ⟨low, high, content⟩ := held address page stored
    have own : (store.mapping address).bornTxn = store.txnId := by
      rw [content, txn]
      exact born
    have linked : store.tag address ≠ 0 := by
      rw [tag]
      exact dirty address (by simp)
    refine (DraftStore.discardPrivate_spec stacked (apart address (by simp)) low high own
      linked).imp ?_
    rintro _ reached ⟨stacked_, txn_, limit_, tag_, others⟩
    refine ⟨txn_.trans txn, limit_.trans limit, tag_.trans tag, small, ?_, rest, ?_, ?_, ?_, ?_⟩
    · simpa using stacked_
    · intro other member
      have different : other ≠ address := fun same => outside (same ▸ member)
      have before := apart other (mem_cons_of_mem _ member)
      simp only [reverse_append, reverse_cons, reverse_nil, nil_append,
        cons_append, mem_cons, not_or]
      exact ⟨different, before⟩
    · exact fun other member => dirty other (mem_cons_of_mem _ member)
    · intro other content_ found
      have different : other ≠ address := by
        rintro rfl
        rw [Function.update_self] at found
        cases found
      rw [Function.update_of_ne different] at found
      obtain ⟨above, below, kept⟩ := held other content_ found
      exact ⟨above, limit_ ▸ below, (others other different).trans kept⟩
    · intro other member
      have different : other ≠ address := fun same => member (by simp [same])
      rw [others other different]
      exact frame other fun earlier => member (mem_append_left _ earlier)

/-- Releasing a tree hands over each of its pages exactly once, children before their
parents, never reads a page it gave up, and ends. Whatever a store does to the pages it
takes back, it fails only where one of its own calls fails, and the client keeps exactly
its other pages. On the pages of a draft, where discarding writes over the headers, it
does not fail: the pages of the tree end up on the stack of discarded pages, the last
released on top, and no other page is written. -/
theorem tree_pages_released_once (lawful : LawfulCodec codec) :
    (∀ (σ : Type) [RetiringStore σ] (laws : RetiringLaws σ) (state : σ) (heap : Heap) (root : Nat)
      (entries : List (Entry codec)) (pages : List Nat), laws.Owns state heap →
      RootAt heap laws.txn root entries pages → pages.Nodup →
      (∀ address ∈ pages, ∀ page, heap address = some page → Committed laws.txn page) →
      ReleasedOnce codec (fun page => RetiringStore.retirePages [page]) (retireTree codec root) root
        heap pages state
        (fun _ reached =>
          laws.Owns reached fun address => if address ∈ pages then none else heap address)
        (ReleaseFails (σ := σ) (fun page => RetiringStore.retirePages [page]) pages)) ∧
    (∀ (σ : Type) [Store σ] (laws : StoreLaws σ) (state : σ) (heap : Heap) (root : Nat)
      (entries : List (Entry codec)) (pages : List Nat), laws.Owns state heap →
      RootAt heap laws.txn root entries pages → pages.Nodup →
      (∀ address ∈ pages, ∀ page, heap address = some page → ¬ Committed laws.txn page) →
      ReleasedOnce codec Store.discardPrivate (discardPrivateTree codec root) root heap pages state
        (fun _ reached =>
          laws.Owns reached fun address => if address ∈ pages then none else heap address)
        (ReleaseFails (σ := σ) Store.discardPrivate pages)) ∧
    ∀ (_ : PageSupply) (store : DraftStore) (stack : List Nat) (heap : Heap) (root : Nat)
      (entries : List (Entry codec)) (pages : List Nat), store.pageCount ≤ 2 ^ 32 →
      DraftStore.PrivateStack store.mapping store.txnId store.privateHead stack →
      (∀ address page, heap address = some page →
        2 ≤ address ∧ address < store.pageCount ∧ store.mapping address = page) →
      RootAt heap store.txnId root entries pages → pages.Nodup →
      (∀ address ∈ pages, address ∉ stack ∧ store.tag address ≠ 0 ∧
        (store.mapping address).bornTxn = store.txnId) →
      ReleasedOnce codec Store.discardPrivate (discardPrivateTree codec root) root heap pages store
        (fun released reached =>
          DraftStore.PrivateStack reached.mapping reached.txnId reached.privateHead
            (released.reverse ++ stack) ∧
          reached.txnId = store.txnId ∧ reached.pageCount = store.pageCount ∧
          reached.tag = store.tag ∧
          ∀ address, address ∉ pages → reached.mapping address = store.mapping address)
        (fun _ _ => False) := by
  have isTree : ∀ {heap : Heap} {txn root : Nat} {entries : List (Entry codec)} {pages : List Nat},
      RootAt heap txn root entries pages → ∀ address ∈ pages, ∀ page, heap address = some page →
        page.hasMagic = true := by
    rintro heap txn root entries pages (⟨_, _, rfl⟩ | ⟨_, _, _, whole, _, _, rfl⟩) address member page
      stored
    · cases member
    · obtain ⟨_, _, _, _, same⟩ := whole.pages address member
      rw [same, Option.some.injEq] at stored
      rw [← stored]
      exact treePage_hasMagic codec _ _ _
  refine ⟨?_, ?_, ?_⟩
  · intro σ _ laws state heap root entries pages owns tree nodup committed
    refine released_by_laws lawful (releases_retire laws) owns tree nodup ?_
    exact fun address member page stored =>
      ⟨committed address member page stored, isTree tree address member page stored⟩
  · intro σ _ laws state heap root entries pages owns tree nodup fresh
    refine released_by_laws lawful releases_discard owns tree nodup ?_
    intro address member page stored
    have magic := isTree tree address member page stored
    have born := not_not.mp (fresh address member page stored)
    simp [Page.ownedBy, magic, born]
  · intro _ store stack heap root entries pages small stacked held tree nodup fresh
    have start : Discarding store stack [] pages heap store := by
      refine ⟨rfl, rfl, rfl, small, by simpa using stacked, nodup, ?_, ?_, held, fun _ _ => rfl⟩
      · intro address member
        simpa using (fresh address member).1
      · exact fun address member => (fresh address member).2.1
    refine (releasedOnce lawful (discarding_releasing store stack) start tree ?_).mono ?_
      fun error _ failed => failed.2
    · intro address member page stored
      rw [← (held address page stored).2.2]
      exact (fresh address member).2.2
    · rintro _ reached ⟨run, order, once, ordered, after, discarding⟩
      refine ⟨run, order, once, ordered, discarding.stacked, discarding.txn, discarding.limit,
        discarding.tag, ?_⟩
      exact fun address outside => discarding.frame address fun member =>
        outside (order.mem_iff.mp member)

end Stores

abbrev noSupply : PageSupply := ⟨throw .pageSpaceExhausted⟩

def stemDraft : DraftStore where
  mapping address := (stemHeap address).getD default
  tag _ := 1
  pageCount := 6
  txnId := 3
  privateHead := 0

theorem tree_pages_released_once_sample : ∃ reached, ∃ released : List Nat,
    (@discardPrivateTree _ _ _ (rangeCodec Ipv4Key) (@DraftStore.instStoreOfPageSupply noSupply) 5
      stemDraft) = .ok () reached ∧ released.Perm [5, 4, 2, 3] ∧
    DraftStore.PrivateStack reached.mapping 3 reached.privateHead released.reverse := by
  have spec := (tree_pages_released_once (rangeCodec_lawful (K := Ipv4Key))).2.2 noSupply stemDraft
    [] stemHeap 5 stemNode.entries [5, 4, 2, 3] (by decide) rfl ?_ (stem_tree (by decide))
    (by decide) (by decide)
  · obtain ⟨_, reached, _, run, order, _, _, stacked, txn, _⟩ := spec.total
    refine ⟨reached.inner, reached.released, run, order, ?_⟩
    rw [txn, append_nil] at stacked
    exact stacked
  · intro address page stored
    exact ⟨(stem_stored stored).1, (stem_stored stored).2, congrArg (Option.getD · default) stored⟩

end FixedTree

end IpRange
