import IpRange.Library.IntervalSweep

/-!
Executable model of IPv4 sets: appending a range while the set stays optimized,
optimization, merging, and the sweeps for common, excluded and differing addresses.
Addresses and counters are numbers with the machine's arithmetic written out. An
allocation that fails ends the program and is not represented.
-/

namespace IpRange

def addrMax : Nat := 2 ^ 32 - 1

def u64 (value : Nat) : Nat := value % 2 ^ 64

/-- What the sets depend on of the machine: its `SIZE_MAX`, its byte order and what one
step up or down does to an `in_addr_t`. -/
structure Machine where
  sizeMax : Nat
  bigEndian : Bool
  next : Nat → Nat
  previous : Nat → Nat

namespace Machine

def wrapping (sizeMax : Nat) (bigEndian : Bool) : Machine where
  sizeMax
  bigEndian
  next value := (value + 1) % 2 ^ 32
  previous value := (value + addrMax) % 2 ^ 32

/-- Steps that are right inside the address space; at its edges they may do anything. -/
structure Exact (machine : Machine) : Prop where
  next : ∀ address < addrMax, machine.next address = address + 1
  previous : ∀ address ≤ addrMax, 0 < address → machine.previous address = address - 1

theorem exact_wrapping (sizeMax : Nat) (bigEndian : Bool) : (wrapping sizeMax bigEndian).Exact := by
  constructor
  · intro address below
    show (address + 1) % 2 ^ 32 = address + 1
    rw [addrMax] at below
    omega
  · intro address bound positive
    show (address + addrMax) % 2 ^ 32 = address - 1
    rw [addrMax] at bound ⊢
    omega

def sizeSum (machine : Machine) (left right : Nat) : Nat := (left + right) % (machine.sizeMax + 1)

end Machine

/-- An `ipset`; `low` and `high` of an entry are its `addr` and `broadcast`. -/
structure Ipset where
  lines : Nat
  netaddrs : List Interval
  uniqueIps : Nat
  optimized : Bool
deriving DecidableEq, Repr

namespace Ipset

def create : Ipset := { lines := 0, netaddrs := [], uniqueIps := 0, optimized := false }

/-- What `ipset_load` starts with: no entries, and the flag it takes away later. -/
def opened : Ipset := { create with optimized := true }

def entries (ips : Ipset) : Nat := ips.netaddrs.length

variable (machine : Machine)

/-- Bytes of a `network_addr_t`. -/
def recordSize : Nat := 8

/-- `ipset_added_entry`, for the entry just written behind the others. -/
def addedEntry (ips : Ipset) (entry : Interval) : Ipset :=
  let ips := { ips with
    lines := machine.sizeSum ips.lines 1
    uniqueIps := u64 (ips.uniqueIps + (entry.high + 2 ^ 64 - entry.low) + 1) }
  let appended := ips.netaddrs ++ [entry]
  match ips.netaddrs.getLast? with
  | none => { ips with netaddrs := appended }
  | some last =>
    if !ips.optimized then { ips with netaddrs := appended }
    else if last.high != addrMax && entry.low == machine.next last.high then
      { ips with netaddrs := ips.netaddrs.dropLast ++ [{ last with high := entry.high }] }
    else if last.high < entry.low then { ips with netaddrs := appended }
    else { ips with netaddrs := appended, optimized := false }

def addIpRange (ips : Ipset) (from_ to_ : Nat) : Ipset :=
  ips.addedEntry machine { low := from_, high := to_ }

/-- The order of `compar_netaddr`: by start, and the longer entry first. -/
def comparNetaddr (left right : Interval) : Bool :=
  decide (left.low < right.low) || (left.low == right.low && decide (right.high ≤ left.high))

/-- The loop of `ipset_optimize` over the sorted entries after the first. -/
def optimizeLoop (ips : Ipset) (lo hi : Nat) : List Interval → Ipset
  | [] => ips.addIpRange machine lo hi
  | next :: rest =>
    if next.high ≤ hi then optimizeLoop ips lo hi rest
    else if decide (next.low ≤ hi) || (hi != addrMax && next.low == machine.next hi) then
      optimizeLoop ips lo next.high rest
    else optimizeLoop (ips.addIpRange machine lo hi) next.low next.high rest

def optimize (ips : Ipset) : Ipset :=
  if ips.optimized then ips
  else
    match ips.netaddrs.mergeSort comparNetaddr with
    | [] => { ips with optimized := true, uniqueIps := 0 }
    | first :: rest =>
      let done := optimizeLoop machine { ips with netaddrs := [], uniqueIps := 0, lines := 0 }
        first.low first.high rest
      { done with lines := ips.lines, optimized := true }

/-- `ipset_merge`; nothing stands for its failure. -/
def merge (to_ add : Ipset) : Option Ipset :=
  if machine.sizeMax < to_.entries + add.entries ∨
      machine.sizeMax / recordSize < to_.entries + add.entries ∨
      machine.sizeMax < to_.lines + add.lines then none
  else some { to_ with
    netaddrs := to_.netaddrs ++ add.netaddrs
    lines := to_.lines + add.lines
    optimized := false }

/-- The sweep of `ipset_common`. Every turn leaves an entry of one set behind, so their
number bounds it. -/
def commonLoop : Nat → List Interval → List Interval → Ipset → Ipset
  | turns + 1, one :: ones, two :: twos, ips =>
    if two.high < one.low then commonLoop turns (one :: ones) twos ips
    else if one.high < two.low then commonLoop turns ones (two :: twos) ips
    else
      let lo := if two.low < one.low then one.low else two.low
      if one.high < two.high then
        commonLoop turns ones (two :: twos) (ips.addIpRange machine lo one.high)
      else commonLoop turns (one :: ones) twos (ips.addIpRange machine lo two.high)
  | _, _, _, ips => ips

/-- What the sweeps do last: the result keeps the lines of both sets and is optimized. -/
def finish (ips ips1 ips2 : Ipset) : Ipset :=
  { ips with lines := machine.sizeSum ips1.lines ips2.lines, optimized := true }

def common (ips1 ips2 : Ipset) : Ipset :=
  let ips1 := ips1.optimize machine
  let ips2 := ips2.optimize machine
  finish machine (commonLoop machine (ips1.entries + ips2.entries) ips1.netaddrs ips2.netaddrs create)
    ips1 ips2

def addAll (ips : Ipset) (ranges : List Interval) : Ipset :=
  ranges.foldl (fun ips range => ips.addIpRange machine range.low range.high) ips

/-- The sweep of `ipset_exclude`. The first entry may have lost its beginning to the second set;
that `lo1` becomes `lo2` in an overlap is never read again. -/
def excludeLoop : Nat → List Interval → List Interval → Ipset → Ipset
  | turns + 1, one :: ones, two :: twos, ips =>
    if two.high < one.low then excludeLoop turns (one :: ones) twos ips
    else if one.high < two.low then
      excludeLoop turns ones (two :: twos) (ips.addIpRange machine one.low one.high)
    else
      let ips :=
        if one.low < two.low then ips.addIpRange machine one.low (machine.previous two.low) else ips
      if one.high = two.high then excludeLoop turns ones twos ips
      else if one.high < two.high then excludeLoop turns ones (two :: twos) ips
      else excludeLoop turns ({ low := machine.next two.high, high := one.high } :: ones) twos ips
  | _, ones, _, ips => ips.addAll machine ones

def exclude (ips1 ips2 : Ipset) : Ipset :=
  let ips1 := ips1.optimize machine
  let ips2 := ips2.optimize machine
  finish machine
    (excludeLoop machine (ips1.entries + ips2.entries) ips1.netaddrs ips2.netaddrs create) ips1 ips2

def diffLoop : Nat → List Interval → List Interval → Ipset → Ipset
  | turns + 1, one :: ones, two :: twos, ips =>
    if two.high < one.low then
      diffLoop turns (one :: ones) twos (ips.addIpRange machine two.low two.high)
    else if one.high < two.low then
      diffLoop turns ones (two :: twos) (ips.addIpRange machine one.low one.high)
    else
      let ips :=
        if two.low < one.low then ips.addIpRange machine two.low (machine.previous one.low)
        else if one.low < two.low then ips.addIpRange machine one.low (machine.previous two.low)
        else ips
      if two.high < one.high then
        diffLoop turns ({ low := machine.next two.high, high := one.high } :: ones) twos ips
      else if one.high < two.high then
        diffLoop turns ones ({ low := machine.next one.high, high := two.high } :: twos) ips
      else diffLoop turns ones twos ips
  | _, ones, twos, ips => (ips.addAll machine ones).addAll machine twos

def diff (ips1 ips2 : Ipset) : Ipset :=
  let ips1 := ips1.optimize machine
  let ips2 := ips2.optimize machine
  finish machine
    (diffLoop machine (ips1.entries + ips2.entries) ips1.netaddrs ips2.netaddrs create) ips1 ips2

end Ipset

end IpRange
