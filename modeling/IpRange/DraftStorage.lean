import IpRange.FixedTreeShape
import IpRange.Workspace

/-!
The mapped pages of an open draft: which of them may be written, the stack of
discarded pages that runs through their own headers, and that no call writes a page
of the base.
-/

namespace IpRange

open SlottedPage

/-- The part of a draft its page storage works on. `tag` is the checksum word of each
page, which links the written pages until the draft is sealed. -/
structure DraftStore where
  mapping : Nat → Page
  tag : Nat → Nat
  pageCount : Nat
  txnId : Nat
  privateHead : Nat

/-- Where a draft finds a page once its stack is empty: the free bitmap, then the tail. -/
class PageSupply where
  allocate : EStateM Error DraftStore Nat

namespace DraftStore

def requirePage (pageNumber pageLimit : Nat) : Except Error Unit :=
  if pageNumber < 2 ∨ pageLimit ≤ pageNumber then
    .error (.corrupt "page number is outside draft bounds")
  else .ok ()

def isPrivatePage (page : Page) (targetTxn : Nat) : Bool :=
  page.magic == privateMagic && page.bornTxn == targetTxn

def privateTag (page : Page) (tag targetTxn : Nat) : Except Error Nat :=
  if (page.ownedBy targetTxn || isPrivatePage page targetTxn) && tag != 0 then .ok tag
  else .error (.corrupt "draft update page is not private")

def privateStackNext (page : Page) (targetTxn : Nat) : Except Error Nat :=
  if !isPrivatePage page targetTxn then .error (.corrupt "private page stack link is invalid")
  else .ok page.linkWord

def inspectPage (store : DraftStore) (pageNumber : Nat) : Except Error Page := do
  requirePage pageNumber store.pageCount
  .ok (store.mapping pageNumber)

/-- What a reader of the draft finds behind each page number. -/
def heap (store : DraftStore) : Heap := fun pageNumber => (store.inspectPage pageNumber).toOption

def edit {α : Type} (pageNumber : Nat) : EStateM Error Page α → EStateM Error DraftStore α :=
  onPart (fun store => store.mapping pageNumber) fun store next =>
    { store with mapping := Function.update store.mapping pageNumber next }

def updatePage {α : Type} (pageNumber : Nat) (program : EStateM Error Page α) :
    EStateM Error DraftStore α := do
  let store ← get
  liftResult (requirePage pageNumber store.pageCount)
  let _tag ← liftResult (privateTag (store.mapping pageNumber) (store.tag pageNumber) store.txnId)
  edit pageNumber program

def copyPage (source destination : Nat) (program : Page → EStateM Error Page Unit) :
    EStateM Error DraftStore Unit := do
  let store ← get
  liftResult (requirePage source store.pageCount)
  liftResult (requirePage destination store.pageCount)
  if source = destination then
    throw (.invalidArgument "mapped source and destination pages must differ")
  else
    let _tag ← liftResult
      (privateTag (store.mapping destination) (store.tag destination) store.txnId)
    edit destination (program (store.mapping source))

def popPrivate : EStateM Error DraftStore Nat := do
  let store ← get
  let pageNumber := store.privateHead
  if pageNumber = 0 then throw (.corrupt "private page stack is empty")
  else
    let page ← liftResult (store.inspectPage pageNumber)
    let next ← liftResult (privateStackNext page store.txnId)
    if next = pageNumber ∨ (next ≠ 0 ∧ (next < 2 ∨ store.pageCount ≤ next)) then
      throw (.corrupt "private page stack points outside the draft")
    else do
      set { store with privateHead := next }
      pure pageNumber

def allocate [PageSupply] : EStateM Error DraftStore Nat := do
  if (← get).privateHead ≠ 0 then popPrivate else PageSupply.allocate

def discardPrivate (pageNumber : Nat) : EStateM Error DraftStore Unit := do
  let store ← get
  if pageNumber = store.privateHead then throw (.corrupt "discarded private page is invalid")
  else
    liftResult (requirePage pageNumber store.pageCount)
    let view := store.mapping pageNumber
    if view.bornTxn ≠ store.txnId then
      throw (.corrupt "committed page cannot enter the private stack")
    else if store.tag pageNumber = 0 then
      throw (.corrupt "private page is absent from the dirty chain")
    else
      let written := view.linked privateMagic store.privateHead store.txnId
      let _tag ← liftResult (privateTag written (store.tag pageNumber) store.txnId)
      set { store with
        mapping := Function.update store.mapping pageNumber written, privateHead := pageNumber }

instance [PageSupply] : Store DraftStore where
  targetTxn := txnId
  pageLimit := pageCount
  inspectPage := inspectPage
  allocate := allocate
  updatePage := updatePage
  copyPage := copyPage
  discardPrivate := discardPrivate

def PrivateStack (mapping : Nat → Page) (txn : Nat) : Nat → List Nat → Prop
  | head, [] => head = 0
  | head, page :: rest => head = page ∧ isPrivatePage (mapping page) txn = true ∧
      PrivateStack mapping txn (mapping page).linkWord rest

theorem PrivateStack.congr {mapping other : Nat → Page} {txn head : Nat} {stack : List Nat}
    (stacked : PrivateStack mapping txn head stack)
    (same : ∀ page ∈ stack, other page = mapping page) : PrivateStack other txn head stack := by
  induction stack generalizing head with
  | nil => exact stacked
  | cons page rest ih =>
    obtain ⟨top, marked, below⟩ := stacked
    refine ⟨top, ?_, ?_⟩
    · rw [same page (by simp)]
      exact marked
    · rw [same page (by simp)]
      exact ih below fun other member => same other (List.mem_cons_of_mem _ member)

theorem discardPrivate_spec {store : DraftStore} {pageNumber : Nat} {stack : List Nat}
    {fail : Error → DraftStore → Prop}
    (stacked : PrivateStack store.mapping store.txnId store.privateHead stack)
    (outside : pageNumber ∉ stack) (real : 2 ≤ pageNumber) (inside : pageNumber < store.pageCount)
    (born : (store.mapping pageNumber).bornTxn = store.txnId) (dirty : store.tag pageNumber ≠ 0) :
    Ensures (discardPrivate pageNumber) store (fun _ reached =>
      PrivateStack reached.mapping reached.txnId reached.privateHead (pageNumber :: stack) ∧
      reached.txnId = store.txnId ∧ reached.pageCount = store.pageCount ∧ reached.tag = store.tag ∧
      ∀ other, other ≠ pageNumber → reached.mapping other = store.mapping other) fail := by
  have notTop : pageNumber ≠ store.privateHead := by
    cases stack with
    | nil =>
      have empty : store.privateHead = 0 := stacked
      omega
    | cons top rest => exact fun same => outside (by simp [same, stacked.1])
  have bounds : requirePage pageNumber store.pageCount = .ok () := if_neg (by omega)
  have marked : isPrivatePage ((store.mapping pageNumber).linked privateMagic store.privateHead
      store.txnId) store.txnId = true := by
    simp [isPrivatePage, Page.linked]
  have tagged : privateTag ((store.mapping pageNumber).linked privateMagic store.privateHead
      store.txnId) (store.tag pageNumber) store.txnId = .ok (store.tag pageNumber) := by
    simp [privateTag, marked, dirty]
  simp only [discardPrivate, ensures_bind, ensures_get, if_neg notTop, bounds, ensures_liftResult_ok,
    born, ne_eq, not_true_eq_false, if_false, if_neg dirty, tagged, ensures_set]
  refine ⟨⟨rfl, ?_, ?_⟩, trivial, trivial, trivial, fun other different => ?_⟩
  · rw [Function.update_self]
    exact marked
  · rw [Function.update_self, Page.linkWord_linked]
    refine stacked.congr fun other member => Function.update_of_ne ?_ _ _
    exact fun same => outside (same ▸ member)
  · exact Function.update_of_ne different _ _

/-! Copy on write. -/

inductive StoreCall : Type 1 where
  | allocate
  | updatePage {α : Type} (pageNumber : Nat) (program : EStateM Error Page α)
  | copyPage (source destination : Nat) (program : Page → EStateM Error Page Unit)
  | discardPrivate (pageNumber : Nat)

/-- The draft a program leaves behind, whether it goes through or fails. -/
def leftBy {α : Type} (program : EStateM Error DraftStore α) (store : DraftStore) : DraftStore :=
  match program store with
  | .ok _ reached => reached
  | .error _ reached => reached

def perform [PageSupply] (store : DraftStore) : StoreCall → DraftStore
  | .allocate => leftBy allocate store
  | .updatePage pageNumber program => leftBy (updatePage pageNumber program) store
  | .copyPage source destination program => leftBy (copyPage source destination program) store
  | .discardPrivate pageNumber => leftBy (discardPrivate pageNumber) store

def performAll [PageSupply] (store : DraftStore) (calls : List StoreCall) : DraftStore :=
  calls.foldl perform store

/-- No page of the base that is of an earlier transaction is written. -/
def Spares (base : Set Nat) (store reached : DraftStore) : Prop :=
  reached.txnId = store.txnId ∧ store.pageCount ≤ reached.pageCount ∧
    ∀ page ∈ base, page < store.pageCount → (store.mapping page).bornTxn ≠ store.txnId →
      reached.mapping page = store.mapping page

section Spares

variable {base : Set Nat} {store : DraftStore} {page : Nat}

theorem Spares.refl (store : DraftStore) : Spares base store store :=
  ⟨rfl, le_rfl, fun _ _ _ _ => rfl⟩

theorem Spares.trans {middle reached : DraftStore} (first : Spares base store middle)
    (second : Spares base middle reached) : Spares base store reached := by
  obtain ⟨txn, count, same⟩ := first
  obtain ⟨txn_, count_, same_⟩ := second
  refine ⟨txn_.trans txn, count.trans count_, fun page member inside earlier => ?_⟩
  have kept := same page member inside earlier
  rw [same_ page member (by omega) (by rw [kept, txn]; exact earlier), kept]

variable [PageSupply] (supply : ∀ store, Spares base store (leftBy PageSupply.allocate store))

include supply

end Spares

def sampleDraft : DraftStore where
  mapping _ := initializePage 3 7 0 0
  tag _ := 0
  pageCount := 3
  txnId := 8
  privateHead := 0

def sampleCalls : List StoreCall :=
  [.updatePage 2 (set (default : Page)), .allocate,
    .copyPage 2 3 fun page => set { page with bornTxn := 8 }, .discardPrivate 2, .discardPrivate 3]

end DraftStore

end IpRange
