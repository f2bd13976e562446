import IpRange.FixedTreeStore

/-!
The workspace an immutable build uses as page storage: pages from an offset on,
with the discarded ones stacked through a link in their own headers. It keeps
the laws a tree relies on.
-/

namespace IpRange

open Function SlottedPage

namespace Page

/-- The word behind the magic of a stacked page, where the type, the flags and the
header size of a data page lie. -/
def linkWord (page : Page) : Nat := page.pageType + 256 * page.flags + 65536 * page.headerBytes

def linked (page : Page) (magic next txn : Nat) : Page :=
  { page with magic, pageType := next % 256, flags := next / 256 % 256,
              headerBytes := next / 65536, bornTxn := txn }

@[simp] theorem linkWord_linked (page : Page) (magic next txn : Nat) :
    (page.linked magic next txn).linkWord = next := by
  simp only [linkWord, linked]
  omega

end Page

def freeMagic : Nat := 0x57465245

structure Workspace where
  mapping : Nat → Page
  first : Nat
  limit : Nat
  next : Nat
  free : Nat
  txn : Nat

namespace Workspace

def requireAllocated (workspace : Workspace) (page : Nat) : Except Error Unit :=
  if page < workspace.first || workspace.next ≤ page then
    .error (.corrupt "immutable workspace page is outside its allocation")
  else .ok ()

def popFree : EStateM Error Workspace Nat := do
  let workspace ← get
  let page := workspace.free
  liftResult (workspace.requireAllocated page)
  let stacked := workspace.mapping page
  if stacked.magic ≠ freeMagic || stacked.bornTxn ≠ workspace.txn then
    throw (.corrupt "immutable workspace free link is invalid")
  else
    let following := stacked.linkWord
    if following ≠ 0 && (following == page || following < workspace.first ||
        workspace.next ≤ following) then
      throw (.corrupt "immutable workspace free link is invalid")
    else do
      set { workspace with free := following }
      pure page

def allocate : EStateM Error Workspace Nat := do
  let workspace ← get
  if workspace.free ≠ 0 then popFree
  else if workspace.next = workspace.limit then
    throw (.budgetExceeded "immutable construction workspace pages")
  else if 2 ^ 32 ≤ workspace.next then throw .pageSpaceExhausted
  else do
    set { workspace with next := workspace.next + 1 }
    pure workspace.next

def edit {α : Type} (page : Nat) : EStateM Error Page α → EStateM Error Workspace α :=
  onPart (fun workspace => workspace.mapping page) fun workspace next =>
    { workspace with mapping := Function.update workspace.mapping page next }

def updatePage {α : Type} (page : Nat) (program : EStateM Error Page α) :
    EStateM Error Workspace α := do
  liftResult ((← get).requireAllocated page)
  edit page program

def copyPage (source destination : Nat) (program : Page → EStateM Error Page Unit) :
    EStateM Error Workspace Unit := do
  let workspace ← get
  liftResult (workspace.requireAllocated source)
  liftResult (workspace.requireAllocated destination)
  if source = destination then throw (.invalidArgument "mapped source and destination pages must differ")
  else edit destination (program (workspace.mapping source))

def discardPrivate (page : Nat) : EStateM Error Workspace Unit := do
  let workspace ← get
  liftResult (workspace.requireAllocated page)
  if page = workspace.free then
    throw (.corrupt "immutable workspace page was discarded twice")
  else if !(workspace.mapping page).ownedBy workspace.txn then
    throw (.corrupt "immutable workspace discarded a foreign page")
  else
    set { workspace with
      mapping := Function.update workspace.mapping page
        ((workspace.mapping page).linked freeMagic workspace.free workspace.txn)
      free := page }

instance : Store Workspace where
  targetTxn := txn
  pageLimit := next
  inspectPage workspace page := do
    workspace.requireAllocated page
    .ok (workspace.mapping page)
  allocate := allocate
  updatePage := updatePage
  copyPage := copyPage
  discardPrivate := discardPrivate

def Stacked (mapping : Nat → Page) (txn : Nat) : Nat → List Nat → Prop
  | head, [] => head = 0
  | head, page :: rest => head = page ∧ (mapping page).magic = freeMagic ∧
      (mapping page).bornTxn = txn ∧ Stacked mapping txn (mapping page).linkWord rest

theorem Stacked.congr {mapping other : Nat → Page} {txn head : Nat} {stack : List Nat}
    (stacked : Stacked mapping txn head stack) (same : ∀ page ∈ stack, other page = mapping page) :
    Stacked other txn head stack := by
  induction stack generalizing head with
  | nil => exact stacked
  | cons page rest ih =>
    obtain ⟨top, magic, born, below⟩ := stacked
    have here := same page (by simp)
    refine ⟨top, by rw [here]; exact magic, by rw [here]; exact born, ?_⟩
    rw [here]
    exact ih below fun other member => same other (by simp [member])

structure Holds (txn : Nat) (workspace : Workspace) (heap : Heap) : Prop where
  txn_ : workspace.txn = txn
  low : 2 ≤ workspace.first
  ordered : workspace.first ≤ workspace.next
  word : workspace.next ≤ 2 ^ 32
  fresh : ∀ address, workspace.next ≤ address → (workspace.mapping address).hasMagic = false
  held : ∀ address page, heap address = some page → workspace.first ≤ address ∧
    address < workspace.next ∧ workspace.mapping address = page
  stacked : ∃ stack : List Nat, stack.Nodup ∧
    Stacked workspace.mapping txn workspace.free stack ∧
    ∀ page ∈ stack, workspace.first ≤ page ∧ page < workspace.next ∧ heap page = none

def Unclaimed (txn : Nat) (page : Page) : Prop := page.hasMagic = true → page.bornTxn = txn

variable {txn : Nat} {workspace : Workspace} {heap : Heap}

theorem requireAllocated_ok {page : Nat} (low : workspace.first ≤ page)
    (high : page < workspace.next) : workspace.requireAllocated page = .ok () := by
  simp only [requireAllocated, Bool.or_eq_true, decide_eq_true_eq]
  rw [if_neg (by omega)]

def Full (error : Error) (workspace : Workspace) : Prop :=
  workspace.next = workspace.limit ∧
      error = .budgetExceeded "immutable construction workspace pages" ∨
    2 ^ 32 ≤ workspace.next ∧ error = .pageSpaceExhausted

section

variable (holds : Holds txn workspace heap)

include holds

theorem popFree_spec (some_ : workspace.free ≠ 0) :
    Ensures popFree workspace (fun address reached => heap address = none ∧
      ∃ page, Unclaimed txn page ∧ Holds txn reached (Function.update heap address (some page)))
      Full := by
  obtain ⟨stack, nodup, stacked, inside⟩ := holds.stacked
  cases stack with
  | nil => exact absurd stacked some_
  | cons page rest =>
    obtain ⟨top, magic, born, below⟩ := stacked
    obtain ⟨low, high, unused⟩ := inside page (by simp)
    have link : (decide ((workspace.mapping page).linkWord ≠ 0) &&
        ((workspace.mapping page).linkWord == page ||
          decide ((workspace.mapping page).linkWord < workspace.first) ||
          decide (workspace.next ≤ (workspace.mapping page).linkWord))) = false := by
      cases rest with
      | nil => simp [show (workspace.mapping page).linkWord = 0 from below]
      | cons next others =>
        have same : (workspace.mapping page).linkWord = next := below.1
        obtain ⟨nextLow, nextHigh, _⟩ := inside next (by simp)
        have different : next ≠ page := fun equal =>
          (List.nodup_cons.mp nodup).1 (by simp [equal])
        simp [same, different]
        omega
    have valid : (decide ((workspace.mapping page).magic ≠ freeMagic) ||
        decide ((workspace.mapping page).bornTxn ≠ workspace.txn)) = false := by
      simp [magic, born, holds.txn_]
    simp only [popFree, ensures_bind, ensures_get, top, requireAllocated_ok low high,
      ensures_liftResult_ok, valid, Bool.false_eq_true, if_false, link, ensures_set, ensures_pure]
    refine ⟨unused, workspace.mapping page, fun _ => born, holds.txn_, holds.low, holds.ordered,
      holds.word, holds.fresh, ?_, rest, (List.nodup_cons.mp nodup).2, below, ?_⟩
    · intro address content stored
      by_cases same : address = page
      · subst same
        rw [update_self] at stored
        exact ⟨low, high, Option.some.inj stored⟩
      · rw [update_of_ne same] at stored
        exact holds.held address content stored
    · intro other member
      obtain ⟨otherLow, otherHigh, otherUnused⟩ := inside other (by simp [member])
      have different : other ≠ page := fun equal =>
        (List.nodup_cons.mp nodup).1 (equal ▸ member)
      exact ⟨otherLow, otherHigh, by rw [update_of_ne different]; exact otherUnused⟩

theorem allocate_spec :
    Ensures allocate workspace (fun address reached => heap address = none ∧
      ∃ page, Unclaimed txn page ∧ Holds txn reached (Function.update heap address (some page)))
      Full := by
  unfold allocate
  simp only [ensures_bind, ensures_get]
  by_cases some_ : workspace.free ≠ 0
  · rw [if_pos some_]
    exact popFree_spec holds some_
  · rw [if_neg some_]
    by_cases full : workspace.next = workspace.limit
    · rw [if_pos full, ensures_throw]
      exact Or.inl ⟨full, rfl⟩
    · rw [if_neg full]
      by_cases wide : 2 ^ 32 ≤ workspace.next
      · rw [if_pos wide, ensures_throw]
        exact Or.inr ⟨wide, rfl⟩
      · have unused : heap workspace.next = none := by
          by_contra stored
          obtain ⟨page, found⟩ := Option.ne_none_iff_exists'.mp stored
          have inside := (holds.held _ page found).2.1
          omega
        have low := holds.low
        have ordered := holds.ordered
        obtain ⟨stack, nodup, stacked, inside⟩ := holds.stacked
        simp only [if_neg wide, ensures_bind, ensures_set, ensures_pure]
        refine ⟨unused, workspace.mapping workspace.next, ?_, holds.txn_, low,
          Nat.le_succ_of_le ordered, Nat.lt_of_not_le wide, ?_, ?_, stack, nodup, stacked, ?_⟩
        · intro marked
          rw [holds.fresh _ le_rfl] at marked
          cases marked
        · exact fun address past => holds.fresh address (Nat.le_of_succ_le past)
        · intro address content stored
          by_cases same : address = workspace.next
          · subst same
            rw [update_self] at stored
            exact ⟨ordered, Nat.lt_succ_self _, Option.some.inj stored⟩
          · rw [update_of_ne same] at stored
            obtain ⟨above, below, content_⟩ := holds.held address content stored
            exact ⟨above, Nat.lt_succ_of_lt below, content_⟩
        · intro page member
          obtain ⟨above, below, none⟩ := inside page member
          refine ⟨above, Nat.lt_succ_of_lt below, ?_⟩
          rw [update_of_ne (by omega)]
          exact none

theorem edit_spec {α : Type} {address : Nat} {page next : Page} {value : α}
    {program : EStateM Error Page α}
    (stored : heap address = some page) (run : program page = .ok value next) :
    Ensures (edit address program) workspace (fun result reached => result = value ∧
      Holds txn reached (Function.update heap address (some next))) Full := by
  obtain ⟨low, high, content⟩ := holds.held address page stored
  obtain ⟨stack, nodup, stacked, inside⟩ := holds.stacked
  have outside : ∀ other ∈ stack, other ≠ address := by
    rintro other member rfl
    rw [(inside other member).2.2] at stored
    cases stored
  simp only [edit, ensures_onPart, content]
  rw [Ensures, run]
  refine ⟨rfl, holds.txn_, holds.low, holds.ordered, holds.word, ?_, ?_, stack, nodup,
    stacked.congr fun other member => update_of_ne (outside other member) _ _, ?_⟩
  · intro other past
    exact (congrArg _ (update_of_ne (Nat.ne_of_gt (lt_of_lt_of_le high past)) _ _)).trans
      (holds.fresh other past)
  · intro other otherPage found
    by_cases same : other = address
    · subst same
      rw [update_self] at found
      exact ⟨low, high, (update_self _ _ _).trans (Option.some.inj found)⟩
    · rw [update_of_ne same] at found
      obtain ⟨above, below, kept⟩ := holds.held other otherPage found
      exact ⟨above, below, (update_of_ne same _ _).trans kept⟩
  · intro other member
    obtain ⟨above, below, unused⟩ := inside other member
    exact ⟨above, below, (update_of_ne (outside other member) _ _).trans unused⟩

theorem discardPrivate_spec {address : Nat} {page : Page}
    (stored : heap address = some page) (owned : page.ownedBy txn) :
    Ensures (discardPrivate address) workspace (fun _ reached =>
      Holds txn reached (Function.update heap address none)) Full := by
  obtain ⟨low, high, content⟩ := holds.held address page stored
  obtain ⟨stack, nodup, stacked, inside⟩ := holds.stacked
  have outside : ∀ other ∈ stack, other ≠ address := by
    rintro other member rfl
    rw [(inside other member).2.2] at stored
    cases stored
  have notTop : address ≠ workspace.free := by
    cases stack with
    | nil =>
      have none : workspace.free = 0 := stacked
      have real := holds.low
      omega
    | cons top rest => exact fun same => outside top (by simp) (stacked.1.symm.trans same.symm)
  have mine : (workspace.mapping address).ownedBy workspace.txn = true := by
    rw [content, holds.txn_]
    exact owned
  simp only [discardPrivate, ensures_bind, ensures_get, requireAllocated_ok low high,
    ensures_liftResult_ok, if_neg notTop, mine, Bool.not_true, Bool.false_eq_true, if_false,
    ensures_set]
  refine ⟨holds.txn_, holds.low, holds.ordered, holds.word, ?_, ?_, address :: stack,
    List.nodup_cons.mpr ⟨fun member => outside address member rfl, nodup⟩, ⟨rfl, ?_, ?_, ?_⟩, ?_⟩
  · intro other past
    exact (congrArg _ (update_of_ne (Nat.ne_of_gt (lt_of_lt_of_le high past)) _ _)).trans
      (holds.fresh other past)
  · intro other otherPage found
    have different : other ≠ address := by
      rintro rfl
      rw [update_self] at found
      cases found
    rw [update_of_ne different] at found
    obtain ⟨above, below, kept⟩ := holds.held other otherPage found
    exact ⟨above, below, (update_of_ne different _ _).trans kept⟩
  · simp only [update_self]
    rfl
  · simp only [update_self]
    exact holds.txn_
  · simp only [update_self, Page.linkWord_linked]
    exact stacked.congr fun other member => update_of_ne (outside other member) _ _
  · intro other member
    rcases List.mem_cons.mp member with same | below
    · subst same
      exact ⟨low, high, update_self _ _ _⟩
    · obtain ⟨above, under, unused⟩ := inside other below
      exact ⟨above, under, (update_of_ne (outside other below) _ _).trans unused⟩

theorem inspectPage_zero : ∃ error, Store.inspectPage workspace 0 = .error error := by
  refine ⟨.corrupt "immutable workspace page is outside its allocation", ?_⟩
  have low := holds.low
  have outside : (decide (0 < workspace.first) || decide (workspace.next ≤ 0)) = true := by
    simp only [Bool.or_eq_true, decide_eq_true_eq]
    omega
  simp only [Store.inspectPage, requireAllocated, outside, if_true, bind, Except.bind]

end

theorem sampleTxn_positive : 0 < 7 := by decide

theorem sampleTxn_word : 7 < 2 ^ 64 := by decide

def laws (txn : Nat) (positive : 0 < txn) (word : txn < 2 ^ 64) : StoreLaws Workspace where
  txn := txn
  txnPositive := positive
  txnWord := word
  Owns := Holds txn
  Fails := Full
  Writable := Unclaimed txn
  writable page owned _ := by
    simp only [Page.ownedBy, Bool.and_eq_true, beq_iff_eq] at owned
    exact owned.2
  target holds := holds.txn_
  limit holds := holds.word
  bounds holds stored := by
    obtain ⟨low, high, _⟩ := holds.held _ _ stored
    exact ⟨le_trans holds.low low, high⟩
  reserved holds := inspectPage_zero holds
  inspect holds stored := by
    obtain ⟨low, high, content⟩ := holds.held _ _ stored
    simp only [Store.inspectPage, requireAllocated_ok low high, bind, Except.bind, content]
  allocate holds := allocate_spec holds
  update holds stored _ run _ := by
    obtain ⟨low, high, _⟩ := holds.held _ _ stored
    simp only [Store.updatePage, updatePage, ensures_bind, ensures_get,
      requireAllocated_ok low high, ensures_liftResult_ok]
    exact edit_spec holds stored run
  copy {workspace heap source destination page target next program} holds read stored different _
      run _ := by
    obtain ⟨sourceLow, sourceHigh, content⟩ := holds.held source page read
    obtain ⟨low, high, _⟩ := holds.held destination target stored
    simp only [Store.copyPage, copyPage, ensures_bind, ensures_get,
      requireAllocated_ok sourceLow sourceHigh, requireAllocated_ok low high, ensures_liftResult_ok,
      if_neg different, content]
    exact (edit_spec holds stored run).imp fun _ _ post => post.2
  discard holds stored owned := discardPrivate_spec holds stored owned

theorem Holds.of_heap {first limit next : Nat} (low : 2 ≤ first) (ordered : first ≤ next)
    (word : next ≤ 2 ^ 32)
    (within : ∀ address page, heap address = some page → first ≤ address ∧ address < next) :
    Holds txn ⟨fun address => (heap address).getD default, first, limit, next, 0, txn⟩ heap := by
  refine ⟨rfl, low, ordered, word, ?_, ?_, [], List.nodup_nil, rfl, by simp⟩
  · intro address past
    have free : heap address = none := Option.eq_none_iff_forall_ne_some.mpr fun page stored =>
      absurd (within address page stored).2 (Nat.not_lt.mpr past)
    simp only [free]
    rfl
  · intro address page stored
    obtain ⟨above, below⟩ := within address page stored
    exact ⟨above, below, congrArg (Option.getD · default) stored⟩

end Workspace

end IpRange
