import IpRange.Library.Footprint
import IpRange.FixedTreePages

/-!
What a tree may rely on in its store. A client owns a heap: the pages it was
given, with their contents. The laws say how each store operation changes that
heap when it succeeds, and which failures the store may raise on its own.
-/

namespace IpRange

open SlottedPage

abbrev Heap := Nat → Option Page

structure StoreLaws (σ : Type) [Store σ] where
  txn : Nat
  txnPositive : 0 < txn
  txnWord : txn < 2 ^ 64
  Owns : σ → Heap → Prop
  Fails : Error → σ → Prop
  Writable : Page → Prop
  writable : ∀ page : Page, page.ownedBy txn → Writable page
  target : ∀ {state heap}, Owns state heap → Store.targetTxn state = txn
  limit : ∀ {state heap}, Owns state heap → Store.pageLimit state ≤ 2 ^ 32
  bounds : ∀ {state heap address page}, Owns state heap → heap address = some page →
    2 ≤ address ∧ address < Store.pageLimit state
  reserved : ∀ {state heap}, Owns state heap → ∃ error, Store.inspectPage state 0 = .error error
  inspect : ∀ {state heap address page}, Owns state heap → heap address = some page →
    Store.inspectPage state address = .ok page
  allocate : ∀ {state heap}, Owns state heap →
    Ensures Store.allocate state (fun address reached => heap address = none ∧
      ∃ page, Writable page ∧ Owns reached (Function.update heap address (some page))) Fails
  update : ∀ {α : Type} {state heap address page next} {value : α}
    {program : EStateM Error Page α}, Owns state heap → heap address = some page →
    Writable page → program page = .ok value next → next.ownedBy txn →
    Ensures (Store.updatePage address program) state (fun result reached => result = value ∧
      Owns reached (Function.update heap address (some next))) Fails
  copy : ∀ {state heap source destination page target next}
    {program : Page → EStateM Error Page Unit}, Owns state heap → heap source = some page →
    heap destination = some target → source ≠ destination → Writable target →
    program page target = .ok () next → next.ownedBy txn →
    Ensures (Store.copyPage source destination program) state (fun _ reached =>
      Owns reached (Function.update heap destination (some next))) Fails
  discard : ∀ {state heap address page}, Owns state heap → heap address = some page →
    page.ownedBy txn →
    Ensures (Store.discardPrivate address) state (fun _ reached =>
      Owns reached (Function.update heap address none)) Fails

structure Views {σ : Type} [PageSource σ] (state : σ) (txn : Nat) (heap : Heap) : Prop where
  selected : PageSource.selectedTxn state = txn
  limit : PageSource.selectedPageLimit state ≤ 2 ^ 32
  bounds : ∀ {address page}, heap address = some page →
    2 ≤ address ∧ address < PageSource.selectedPageLimit state
  found : ∀ {address page}, heap address = some page →
    PageSource.viewPage state address = .ok page

variable {σ : Type} {state : σ} {heap : Heap}

theorem Views.word [PageSource σ] {txn address : Nat} {page : Page} (views : Views state txn heap)
    (held : heap address = some page) :
    address < 2 ^ 32 :=
  lt_of_lt_of_le (views.bounds held).2 views.limit

theorem StoreLaws.views [Store σ] (laws : StoreLaws σ) (owns : laws.Owns state heap) :
    Views state laws.txn heap :=
  ⟨laws.target owns, laws.limit owns, laws.bounds owns, laws.inspect owns⟩

theorem StoreLaws.word [Store σ] (laws : StoreLaws σ) {address : Nat} {page : Page}
    (owns : laws.Owns state heap) (held : heap address = some page) :
    address < 2 ^ 32 :=
  (laws.views owns).word held

namespace FixedTree

variable {Key Leaf σ : Type} [Store σ] {codec : Codec Key Leaf}

theorem ensures_viewPage (laws : StoreLaws σ) {α : Type} {state : σ} {heap : Heap} {address : Nat}
    {page : Page} {inspect : Page → Except Error α} {value : α} {post : α → σ → Prop}
    {fail : Error → σ → Prop} (owns : laws.Owns state heap) (held : heap address = some page)
    (result : inspect page = .ok value) (done : post value state) :
    Ensures (viewPage address inspect) state post fail := by
  simp only [viewPage, ensures_bind, ensures_get, laws.inspect owns held, ensures_liftResult_ok,
    result]
  exact done

theorem treePage_ownedBy (txn level : Nat) (cells : List Bytes) :
    (treePage codec txn level cells).ownedBy txn = true := by
  simp [treePage]

theorem writable_treePage (laws : StoreLaws σ) (level : Nat) (cells : List Bytes) :
    laws.Writable (treePage codec laws.txn level cells) :=
  laws.writable _ (treePage_ownedBy _ _ _)

def Committed (txn : Nat) (page : Page) : Prop := page.bornTxn ≠ txn

theorem treePage_not_committed (txn level : Nat) (cells : List Bytes) :
    ¬ Committed txn (treePage codec txn level cells) := by
  simp [Committed]

abbrev Moves (txn : Nat) (before after : Heap) (held kept : List Nat) : Prop :=
  Evolves (Committed txn) before after held kept

end FixedTree

end IpRange
