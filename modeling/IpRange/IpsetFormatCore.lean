import IpRange.Contract
import IpRange.IpsetCore
import IpRange.Library.TextStream

/-!
Executable model of the files the program reads and writes: the binary format, the text
formats with the parser of their lines, and the modes of the command line over loaded
sets. What the program writes to its error stream is left out.
-/

namespace IpRange.Ipset

open Text

/-- `fgets` is called with `MAX_LINE`, which counts the byte that ends the string. -/
def maxLine : Nat := 1024 - 1

def maxInputElement : Nat := 255

def binaryHeaderV10 : Bytes := ascii "iprange binary format v1.0\n"

def binaryHeaderV20 : Bytes := ascii "iprange binary format v2.0\n"

section Binary

variable (machine : Machine)

def inMemory (width value : Nat) : Bytes :=
  if machine.bigEndian then (toLeBytes width value).reverse else toLeBytes width value

def fromMemory (bytes : Bytes) : Nat :=
  fromLeBytes (if machine.bigEndian then bytes.reverse else bytes)

def endianness : Nat := 0x1A2B3C4D

def recordBytes (width : Nat) (entry : Interval) : Bytes :=
  inMemory machine width entry.low ++ inMemory machine width entry.high

structure Format where
  width : Nat
  parseUnique : Bytes → Option Nat
  enoughUnique : Nat → Nat → Bool
  /-- The check of the records: whether they are in order, if they pass. -/
  validate : Bool → List Interval → Nat → Option Bool

def Format.recordSize (format : Format) : Nat := 2 * format.width

variable (format : Format)

def saveRecords (ips : Ipset) : Bytes :=
  (if ips.optimized then ascii "optimized" else ascii "non-optimized") ++ newline ::
    (ascii "record size " ++ decimal format.recordSize ++ newline ::
      (ascii "records " ++ decimal ips.entries ++ newline ::
        (ascii "bytes " ++ decimal (machine.sizeSum (format.recordSize * ips.entries) 4) ++ newline ::
          (ascii "lines " ++ decimal ips.lines ++ newline ::
            (ascii "unique ips " ++ decimal ips.uniqueIps ++ newline ::
              (inMemory machine 4 endianness ++
                ips.netaddrs.flatMap (recordBytes machine format.width)))))))

/-- `parse_binary_size_field` and `parse_binary_u64_field`: digits up to the end of the
line; `strtoull` reports what exceeds 64 bits. -/
def parseBinaryField (limit : Nat) (value : Bytes) : Option Nat :=
  let digits := value.takeWhile isDigit
  let rest := value.dropWhile isDigit
  if digits = [] then none
  else if 2 ^ 64 ≤ number digits then none
  else if rest ≠ [] ∧ rest.head? ≠ some newline then none
  else if limit < number digits then none
  else some (number digits)

def headerField (label : Bytes) (parse : Bytes → Option Nat) (stream : Bytes) :
    Option (Nat × Bytes) := do
  let (line, stream) ← fgets maxLine stream
  let text := cString line
  if !label.isPrefixOf text then none
  else
    let value ← parse (text.drop label.length)
    pure (value, stream)

structure Header where
  optimized : Bool
  records : Nat
  bytes : Nat
  lines : Nat
  uniqueIps : Nat
deriving DecidableEq, Repr

def readHeader (stream : Bytes) : Option (Header × Bytes) := do
  let size := parseBinaryField machine.sizeMax
  let (line, stream) ← fgets maxLine stream
  let flag := cString line
  if flag ≠ ascii "optimized\n" ∧ flag ≠ ascii "non-optimized\n" then none
  else
    let (recordSize, stream) ← headerField (ascii "record size ") size stream
    if recordSize ≠ format.recordSize then none
    else
      let (records, stream) ← headerField (ascii "records ") size stream
      let (bytes, stream) ← headerField (ascii "bytes ") size stream
      let (lines, stream) ← headerField (ascii "lines ") size stream
      let (uniqueIps, stream) ← headerField (ascii "unique ips ") format.parseUnique stream
      pure ({ optimized := flag = ascii "optimized\n", records, bytes, lines, uniqueIps }, stream)

def readRecords (width : Nat) : Nat → Bytes → Option (List Interval × Bytes)
  | 0, stream => some ([], stream)
  | count + 1, stream =>
    if stream.length < 2 * width then none
    else do
      let entry : Interval :=
        { low := fromMemory machine (stream.take width)
          high := fromMemory machine ((stream.drop width).take width) }
      let (entries, stream) ← readRecords width count (stream.drop (2 * width))
      pure (entry :: entries, stream)

/-- Entries that a new set has room for, and the least by which `ipset_grow` extends it. -/
def entriesIncreaseStep : Nat := 1024

/-- `ipset_grow` of a new set; it ends the program when the array cannot be that large. -/
def canGrow (needed : Nat) : Bool :=
  decide (needed ≤ entriesIncreaseStep) ||
    decide (entriesIncreaseStep + needed ≤ machine.sizeMax / format.recordSize)

def loadPayload (header : Header) (stream : Bytes) : Option Ipset :=
  if (machine.sizeMax - 4) / format.recordSize < header.records then none
  else if machine.sizeMax - entriesIncreaseStep < header.records then none
  else if header.bytes ≠ format.recordSize * header.records + 4 then none
  else if stream.length < 4 then none
  else if fromMemory machine (stream.take 4) ≠ endianness then none
  else if !format.enoughUnique header.uniqueIps header.records then none
  else if header.lines < header.records then none
  else if !canGrow machine format header.records then none
  else do
    let (entries, stream) ← readRecords machine format.width header.records (stream.drop 4)
    if stream ≠ [] then none
    else
      let optimized ← format.validate header.optimized entries header.uniqueIps
      pure {
        lines := header.lines
        netaddrs := entries
        uniqueIps := header.uniqueIps
        optimized := header.optimized && optimized }

def loadRecords (stream : Bytes) : Option Ipset := do
  let (header, stream) ← readHeader machine format stream
  loadPayload machine format header stream

/-- `binary_add_unique_ips` with the size of a proper range. -/
def addUniqueIps (total lo hi : Nat) : Option Nat :=
  let size := hi - lo + 1
  if 2 ^ 64 - 1 - size < total then none else some (total + size)

def misplaced (prev curr : Interval) : Bool :=
  decide (curr.low < prev.low) || decide (curr.low ≤ prev.high) ||
    (prev.high != addrMax && curr.low == machine.next prev.high)

def payloadIsOptimized : List Interval → Bool
  | prev :: curr :: rest => !misplaced machine prev curr && payloadIsOptimized (curr :: rest)
  | _ => true

def uniqueLoop (total lo hi : Nat) : List Interval → Option Nat
  | [] => addUniqueIps total lo hi
  | next :: rest =>
    if next.high ≤ hi then uniqueLoop total lo hi rest
    else if decide (next.low ≤ hi) || (hi != addrMax && next.low == machine.next hi) then
      uniqueLoop total lo next.high rest
    else do
      let total ← addUniqueIps total lo hi
      uniqueLoop total next.low next.high rest

def actualUniqueIps (entries : List Interval) : Option Nat :=
  if payloadIsOptimized machine entries then
    entries.foldlM (fun total entry => addUniqueIps total entry.low entry.high) 0
  else
    match entries.mergeSort comparNetaddr with
    | [] => none
    | first :: rest => uniqueLoop machine 0 first.low first.high rest

def binaryValidatePayload (headerOptimized : Bool) (entries : List Interval) (expected : Nat) :
    Option Bool :=
  if entries = [] then if expected ≠ 0 then none else some true
  else if entries.any fun entry => entry.high < entry.low then none
  else do
    let optimized := payloadIsOptimized machine entries
    let actual ← actualUniqueIps machine entries
    if expected ≠ actual then none
    else if headerOptimized && !optimized then none
    else some optimized

def formatV10 : Format where
  width := 4
  parseUnique := parseBinaryField (2 ^ 64 - 1)
  enoughUnique unique records := decide (records ≤ unique)
  validate := binaryValidatePayload machine

/-- `ipset_save_binary_v10`, without output for an empty set. -/
def saveBinaryV10 (ips : Ipset) : Bytes :=
  if ips.entries = 0 then [] else binaryHeaderV10 ++ saveRecords machine (formatV10 machine) ips

/-- `ipset_load_binary_v10` after its first line. -/
def loadBinaryV10 (stream : Bytes) : Option Ipset := loadRecords machine (formatV10 machine) stream

end Binary

section Text

abbrev Addr := BitVec 32

def netmask (length : Nat) : Addr :=
  if length = 0 then ~~~(-1#32) else ~~~((1#32 <<< (32 - length)) - 1#32)

def broadcast (addr : Addr) (length : Nat) : Addr := addr ||| ~~~netmask length

def network (addr : Addr) (length : Nat) : Addr := addr &&& netmask length

/-- What a run finds around it: how `inet_aton` reads an address, the replies for the hostnames
asked for so far, and the two options of `str2netaddr`. -/
structure Environment where
  inetAton : Bytes → Option Addr
  replies : List Bytes → List Addr
  accepts : List Bytes → Bool
  /-- Replies that `dns_done` collects; nothing when a name could not be resolved. -/
  lastReplies : List Bytes → Option (List Addr)
  defaultPrefix : Nat
  cidrUseNetwork : Bool

variable (environment : Environment)

/-- The low bits that are set go, and with each the prefix gets shorter. -/
def maskLoop : Nat → Addr → Nat → Addr × Nat
  | turns + 1, mask, length =>
    if mask.getLsbD 0 then maskLoop turns (mask >>> 1) (length - 1) else (mask, length)
  | 0, mask, length => (mask, length)

/-- The number after a slash: a length, or else a netmask. `strtol` gives a number above
32 to what is too large for it. -/
def parsePrefix (text : Bytes) : Option Nat :=
  let digits := text.takeWhile isDigit
  if digits ≠ [] ∧ text.dropWhile isDigit = [] ∧ number digits ≤ 32 then some (number digits)
  else do
    let address ← environment.inetAton text
    let (mask, length) := maskLoop 32 (~~~address) 32
    if mask ≠ 0 then none else some length

def slash : UInt8 := byte '/'

def netaddrPrefix (text : Bytes) : Option Nat :=
  if text.contains slash then parsePrefix environment ((text.dropWhile (· ≠ slash)).drop 1)
  else some environment.defaultPrefix

def str2netaddr (text : Bytes) : Option Interval := do
  let length ← netaddrPrefix environment text
  let address ← environment.inetAton (text.takeWhile (· ≠ slash))
  let addr := if environment.cidrUseNetwork then network address length else address
  pure { low := addr.toNat, high := (broadcast addr length).toNat }

inductive LineType where
  | isInvalid
  | isEmpty
  | has1Ip (ipstr : Bytes)
  | has2Ips (ipstr ipstr2 : Bytes)
  | has1Hostname (name : Bytes)
deriving DecidableEq, Repr

def isSpace (character : UInt8) : Bool := character == byte ' ' || character == byte '\t'

def skipSpaces (text : Bytes) : Bytes := text.dropWhile isSpace

def atComment (text : Bytes) : Bool :=
  text.head? == some (byte '#') || text.head? == some (byte ';')

def atEnd (text : Bytes) : Bool :=
  text.isEmpty || text.head? == some (byte '\r') || text.head? == some newline

def isIpChar (character : UInt8) : Bool :=
  isDigit character || character == byte '.' || character == slash

def isHostnameChar (character : UInt8) : Bool :=
  isDigit character || decide (byte 'a' ≤ character ∧ character ≤ byte 'z') ||
    decide (byte 'A' ≤ character ∧ character ≤ byte 'Z') || character == byte '_' ||
    character == byte '-' || character == byte '.'

def takeElement (inside : UInt8 → Bool) (text : Bytes) : Bytes :=
  (text.takeWhile inside).take maxInputElement

def tokenLooksIpLike (token : Bytes) : Bool := token.contains (byte '.') || token.contains slash

def candidateLoop (dots digits : Nat) : Bytes → Bool
  | [] => dots == 3 && digits != 0
  | character :: rest =>
    if isDigit character then candidateLoop dots (digits + 1) rest
    else if character == byte '.' && digits != 0 then candidateLoop (dots + 1) 0 rest
    else false

def tokenIsCompleteIpv4Candidate (token : Bytes) : Bool :=
  if token.contains slash then true else candidateLoop 0 0 token

def lineIsHostnameCandidate (line : Bytes) : Bool :=
  let text := skipSpaces line
  let after := skipSpaces (text.dropWhile isHostnameChar)
  !(text.takeWhile isHostnameChar).isEmpty && (atComment after || atEnd after)

def parseHostname (line : Bytes) : LineType :=
  let text := skipSpaces line
  let name := takeElement isHostnameChar text
  if name = [] then .isInvalid
  else
    let after := skipSpaces (text.drop name.length)
    if atComment after || atEnd after then .has1Hostname name else .isInvalid

def parseLine (line : Bytes) : LineType :=
  let text := skipSpaces line
  if atComment text || atEnd text then .isEmpty
  else
    let ipstr := takeElement isIpChar text
    if ipstr = [] then parseHostname line
    else
      let ipLike := tokenLooksIpLike ipstr
      let hostnameCandidate := lineIsHostnameCandidate line
      let after := skipSpaces (text.drop ipstr.length)
      if atComment after || atEnd after then .has1Ip ipstr
      else if after.head? ≠ some (byte '-') then
        if ipstr.contains slash then .isInvalid
        else if ipLike && tokenIsCompleteIpv4Candidate ipstr then .isInvalid
        else if hostnameCandidate then parseHostname line
        else .isInvalid
      else
        let second := skipSpaces (after.drop 1)
        if atComment second || atEnd second then .has1Ip ipstr
        else
          let ipstr2 := takeElement isIpChar second
          let notAddress := !ipstr.contains slash && !tokenIsCompleteIpv4Candidate ipstr
          if ipstr2 = [] then
            if notAddress && hostnameCandidate then parseHostname line else .isInvalid
          else
            let last := skipSpaces (second.drop ipstr2.length)
            if atComment last || atEnd last then .has2Ips ipstr ipstr2
            else if notAddress && hostnameCandidate then parseHostname line
            else .isInvalid

structure Loading where
  ips : Ipset
  parseErrors : Bool
  requests : List Bytes

variable (machine : Machine)

/-- `ipset_add_ipstr`; nothing stands for a text that is no address. -/
def addIpstr (ips : Ipset) (ipstr : Bytes) : Option Ipset := do
  let entry ← str2netaddr environment ipstr
  pure (ips.addedEntry machine entry)

def mappedIpstr (line : Bytes) : Option Bytes :=
  let text := skipSpaces line
  let f (character : Option UInt8) : Bool :=
    character == some (byte 'f') || character == some (byte 'F')
  if text.head? == some (byte ':') && text[1]? == some (byte ':') && f text[2]? && f text[3]? &&
      f text[4]? && f text[5]? && text[6]? == some (byte ':') then
    let v4str := takeElement isIpChar (text.drop 7)
    let after := skipSpaces ((text.drop 7).drop v4str.length)
    if v4str ≠ [] ∧ (atEnd after || atComment after) then some v4str else none
  else none

def addAddresses (ips : Ipset) (addresses : List Addr) : Ipset :=
  ips.addAll machine (addresses.map fun address => { low := address.toNat, high := address.toNat })

/-- One turn of the loop of `ipset_load`; nothing stands for a name that cannot be asked
for. -/
def loadLine (loading : Loading) (line : Bytes) : Option Loading :=
  let line := cString line
  let added (ips : Option Ipset) : Loading :=
    match ips with
    | some ips => { loading with ips }
    | none => { loading with parseErrors := true }
  match parseLine line with
  | .isInvalid =>
    if 2 ≤ line.count (byte ':') then
      match (mappedIpstr line).bind (addIpstr environment machine loading.ips) with
      | some ips => some { loading with ips }
      | none => some loading
    else some { loading with parseErrors := true }
  | .isEmpty => some loading
  | .has1Ip ipstr => some (added (addIpstr environment machine loading.ips ipstr))
  | .has2Ips ipstr ipstr2 =>
    some (added do
      let netaddr1 ← str2netaddr environment ipstr
      let netaddr2 ← str2netaddr environment ipstr2
      pure (loading.ips.addIpRange machine (min netaddr1.low netaddr2.low)
        (max netaddr1.high netaddr2.high)))
  | .has1Hostname name =>
    let ips := addAddresses machine loading.ips (environment.replies loading.requests)
    if environment.accepts loading.requests then
      some { loading with ips, requests := loading.requests ++ [name] }
    else none

def dnsDone (requests : List Bytes) : Option (List Addr) :=
  if requests = [] then some [] else environment.lastReplies requests

def loadDone (loading : Loading) : Option Ipset := do
  let replies ← dnsDone environment loading.requests
  if loading.parseErrors then none else pure (addAddresses machine loading.ips replies)

def load (file : Bytes) : Option Ipset :=
  match fgets maxLine file with
  | none => some opened
  | some (line, stream) =>
    if cString line = binaryHeaderV10 then loadBinaryV10 machine stream
    else if cString line = binaryHeaderV20 then none
    else do
      let loading ← (line :: Text.lines maxLine stream).foldlM (loadLine environment machine)
        { ips := opened, parseErrors := false, requests := [] }
      loadDone environment machine loading

end Text

def readOctet (text : Bytes) : Option (Nat × Bytes) :=
  let digits := text.takeWhile isDigit
  if digits = [] ∨ 255 < number digits then none
  else some (number digits, text.dropWhile isDigit)

def readDot (text : Bytes) : Option Bytes :=
  if text.head? = some (byte '.') then some (text.drop 1) else none

/-- An `inet_aton` that takes four decimal numbers only. -/
def dottedQuad (text : Bytes) : Option Addr := do
  let (first, text) ← readOctet text
  let text ← readDot text
  let (second, text) ← readOctet text
  let text ← readDot text
  let (third, text) ← readOctet text
  let text ← readDot text
  let (fourth, text) ← readOctet text
  if text ≠ [] then none
  else pure (BitVec.ofNat 32 (((first * 256 + second) * 256 + third) * 256 + fourth))

def quadEnvironment : Environment where
  inetAton := dottedQuad
  replies _ := []
  accepts _ := false
  lastReplies _ := none
  defaultPrefix := 32
  cidrUseNetwork := true

/-- `IPSET_PRINT_CMD`; ranges are what every other command prints. -/
inductive PrintCmd where
  | cidr
  | singleIps
  | range
  | binary
deriving DecidableEq, Repr

def octetText (octet : Nat) : Bytes :=
  (if octet / 100 = 0 then [] else [digit (octet / 100)]) ++
    (if octet % 100 / 10 = 0 ∧ octet / 100 = 0 then [] else [digit (octet % 100 / 10)]) ++
    [digit (octet % 10)]

def octet (addr : Addr) (shift : Nat) : Nat := ((addr >>> shift) &&& 0xff#32).toNat

def ip2str (addr : Addr) : Bytes :=
  octetText (octet addr 24) ++ [byte '.'] ++ octetText (octet addr 16) ++ [byte '.'] ++
    octetText (octet addr 8) ++ [byte '.'] ++ octetText (octet addr 0)

def printAddr (addr : Addr) (length : Nat) : Bytes :=
  if length < 32 then ip2str addr ++ [slash] ++ decimal length ++ [newline]
  else ip2str addr ++ [newline]

def printAddrRange (lo hi : Addr) : Bytes :=
  let (lo, hi) := if hi < lo then (hi, lo) else (lo, hi)
  ip2str lo ++ [byte '-'] ++ ip2str hi ++ [newline]

def printAddrSingle (addr : Addr) : Bytes := ip2str addr ++ [newline]

def setBit (addr : Addr) (bitno : Nat) : Addr := addr ||| (1#32 <<< (32 - bitno))

/-- `split_range` with the networks it prints; the prefix gets longer with every turn. -/
def splitRange (enabled : Nat → Bool) : Nat → Addr → Nat → Addr → Addr → List (Addr × Nat)
  | 0, _, _, _, _ => []
  | turns + 1, addr, length, lo, hi =>
    let (lo, hi) := if hi < lo then (hi, lo) else (lo, hi)
    if 32 < length then []
    else
      let bc := broadcast addr length
      if lo < addr ∨ bc < hi then []
      else if lo = addr ∧ hi = bc ∧ enabled length = true then [(addr, length)]
      else
        let length := length + 1
        let upperHalf := setBit addr length
        if hi < upperHalf then splitRange enabled turns addr length lo hi
        else if upperHalf ≤ lo then splitRange enabled turns upperHalf length lo hi
        else splitRange enabled turns addr length lo (broadcast addr length) ++
          splitRange enabled turns upperHalf length upperHalf hi

/-- Prefixes from 0 to 32, and the one that is refused. -/
def splitTurns : Nat := 34

/-- The loop over the addresses of an entry; the counter may wrap around at the end of the
address space. -/
def singlesLoop : Nat → Addr → Addr → Addr → Bytes
  | 0, _, _, _ => []
  | turns + 1, start, stop, x =>
    if start ≤ x ∧ x ≤ stop then printAddrSingle x ++ singlesLoop turns start stop (x + 1) else []

def printSingles (start stop : Addr) : Bytes :=
  let (start, stop) := if stop < start then (stop, start) else (start, stop)
  if 256 * 256 * 256 < (stop - start).toNat then []
  else singlesLoop ((stop - start).toNat + 2) start stop start

/-- `ipset_print`, with empty strings around addresses and networks. -/
def print (machine : Machine) (enabled : Nat → Bool) (ips : Ipset) (cmd : PrintCmd) : Bytes :=
  let ips := ips.optimize machine
  match cmd with
  | .binary => saveBinaryV10 machine ips
  | .cidr =>
    ips.netaddrs.flatMap fun entry =>
      (splitRange enabled splitTurns 0 0 (BitVec.ofNat 32 entry.low)
        (BitVec.ofNat 32 entry.high)).flatMap fun network => printAddr network.1 network.2
  | .singleIps =>
    ips.netaddrs.flatMap fun entry =>
      printSingles (BitVec.ofNat 32 entry.low) (BitVec.ofNat 32 entry.high)
  | .range =>
    ips.netaddrs.flatMap fun entry =>
      printAddrRange (BitVec.ofNat 32 entry.low) (BitVec.ofNat 32 entry.high)

section Modes

variable (machine : Machine)

inductive Mode where
  | combine
  | common
  | excludeNext
  | diff
deriving DecidableEq, Repr

def mergeAll (root : Ipset) (others : List Ipset) : Option Ipset :=
  others.foldlM (merge machine) root

/-- The set that `main` gives to `ipset_print`, from the sets loaded before and after the
option that starts the second list. -/
def runMode (mode : Mode) (roots seconds : List Ipset) : Option Ipset :=
  match mode, roots, seconds with
  | .combine, root :: rest, _ => mergeAll machine root rest
  | .common, root :: next :: rest, _ =>
    some (rest.foldl (common machine) (root.common machine next))
  | .excludeNext, root :: rest, second :: more => do
    let root ← mergeAll machine root rest
    pure ((second :: more).foldl (exclude machine) root)
  | .diff, root :: rest, second :: more => do
    let root ← mergeAll machine root rest
    let second ← mergeAll machine second more
    pure (root.diff machine second)
  | _, _, _ => none

end Modes

end IpRange.Ipset
