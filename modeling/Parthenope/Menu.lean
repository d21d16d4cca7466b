import Parthenope.CString
import Parthenope.StepLoop

/-! The parser of `menu.lst` and `Kicklayout` in `menu.c`. The menu is a heap of
linked entries and the current line a buffer of its own; both are read through
pointers, and reading or freeing what has been freed is a fault. `fsm` and
`kick_fsm` are one machine with different words, and each is written here as
that machine with its own. -/
namespace Parthenope.Menu
open CString

abbrev Addr := Nat

inductive DeviceType
  | default
  | ide
  | tftp
  | cd
  deriving DecidableEq

/-- `struct EntryObject`. -/
structure EntryObject where
  name : List Byte
  args : Option (List Byte)
  partition : Option (List Byte)
  deriving DecidableEq

/-- `menu_t` without its link and the two numbers only the head carries. The
strings are copies the entry owns; `modules_cnt` is the length of the list. -/
structure Entry where
  title : Option (List Byte)
  kernel : Option (List Byte)
  other : Option (List Byte)
  append : Option (List Byte)
  initrd : Option (List Byte)
  dtb : Option (List Byte)
  modules : List EntryObject
  deviceType : DeviceType
  deviceNum : Word
  partition : Word
  deriving DecidableEq

def maxModules : Nat := 100

/-- The fields `entry_alloc` sets. -/
def entryAlloc : Entry where
  title := none
  kernel := none
  other := none
  append := none
  initrd := none
  dtb := none
  modules := []
  deviceType := .default
  deviceNum := 0
  partition := 0

structure Node where
  entry : Entry
  defaultOs : Word
  delay : Word
  next : Option Addr

/-- A freed or unused address has no node. `fresh` is what `malloc` gives next. -/
structure Heap where
  cells : Addr → Option Node
  fresh : Addr

def Heap.set (heap : Heap) (a : Addr) (node : Option Node) : Heap :=
  { heap with cells := fun b => if b = a then node else heap.cells b }

/-- `enum states`. -/
inductive Status
  | S | DEF | DLY | TIT | IN | RT | K | O | RD | DTB | M | A | R | AQ | RQ
  deriving DecidableEq

/-- What became of an entry. -/
inductive Event
  | allocated (a : Addr)
  | appended (a : Addr)
  | freed (a : Addr)
  deriving DecidableEq

inductive Fault
  | freedEntry
  | freedLine
  | beforeBuffer
  | moduleOverflow
  | endlessMenu
  deriving DecidableEq

/-- The locals of the parser and the memory it works on. `lineptr` is a place
in a line buffer; `events` is read by nothing. -/
structure Parser where
  heap : Heap
  lines : Addr → Option (List Byte)
  freshLine : Addr
  offset : Int
  line : Addr
  lineptr : Addr × Nat
  status : Status
  n : Nat
  kernel : Bool
  entry : Addr
  events : List Event

/-- What differs between `fsm` and `kick_fsm`: the comment character, the words
known outside and inside an entry and the result at the end of the text. -/
structure Dialect where
  comment : Byte
  title : List Byte
  outside : List (List Byte × Status)
  inside : List (List Byte × Status)
  result : Nat → Nat

def menuLst : Dialect where
  comment := 35
  title := chars "title"
  outside := [(chars "title", .TIT), (chars "default", .DEF), (chars "delay", .DLY)]
  inside := [(chars "kernel", .K), (chars "other", .O), (chars "root", .RT),
    (chars "initrd", .RD), (chars "dtb", .DTB), (chars "module", .M)]
  result _ := 1

def kicklayout : Dialect where
  comment := 59
  title := chars "LABEL"
  outside := [(chars "LABEL", .TIT)]
  inside := [(chars "EXEC", .K), (chars "MODULE", .M)]
  result n := n

/-- Comments eaten and both ends trimmed. -/
def Dialect.clean (d : Dialect) (line : List Byte) : List Byte :=
  strtrim (eatcomments d.comment line)

/-- State `K`: the kernel and the rest of the line to append. -/
def kernelLine (lineptr : List Byte) (entry : Entry) : Option Entry :=
  let lineptr := strtrim lineptr
  let word := getnextword lineptr
  if word = [] then none
  else
    let rest := strtrim (lineptr.drop word.length)
    some { entry with
      kernel := some word
      append := if rest ≠ [] then some rest else entry.append }

/-- State `RT`. -/
def rootLine (lineptr : List Byte) (entry : Entry) : Option Entry :=
  let lineptr := strtrim lineptr
  let word := getnextword lineptr
  if word = [] then none
  else
    let lineptr := strtrim (lineptr.drop word.length)
    if word = chars "tftp" then some { entry with deviceType := .tftp }
    else if word = chars "cdrom" then some { entry with deviceType := .cd }
    else if word = chars "ide" then
      match strchr lineptr 58 with
      | none => none
      | some sep =>
        if lineptr.drop (sep + 1) = [] then none
        else some { entry with
          deviceType := .ide
          deviceNum := strtol (lineptr.take sep)
          partition := strtol (lineptr.drop (sep + 1)) - 1 }
    else none

/-- The states that take the first word after the keyword: `O`, `RD`, `DTB`, `M`. -/
def wordLine (store : List Byte → Entry → Entry) (lineptr : List Byte) (entry : Entry) : Option Entry :=
  let word := getnextword (strtrim lineptr)
  if word = [] then none else some (store word entry)

def otherLine : List Byte → Entry → Option Entry :=
  wordLine fun word entry => { entry with other := some word }

def initrdLine : List Byte → Entry → Option Entry :=
  wordLine fun word entry => { entry with initrd := some word }

def dtbLine : List Byte → Entry → Option Entry :=
  wordLine fun word entry => { entry with dtb := some word }

/-- `EntryObject_new (word, NULL, NULL)` at the end of the list. -/
def moduleLine : List Byte → Entry → Option Entry :=
  wordLine fun word entry => { entry with modules := entry.modules ++ [⟨word, none, none⟩] }

/-- What a state inside an entry makes of the rest of the line; `none` where it
rejects the line. -/
def directive : Status → List Byte → Entry → Option Entry
  | .K => kernelLine
  | .RT => rootLine
  | .O => otherLine
  | .RD => initrdLine
  | .DTB => dtbLine
  | .M => moduleLine
  | _ => fun _ _ => none

/-- States `DEF` and `DLY`: the number, where the line has one. -/
def numberLine (lineptr : List Byte) : Option Word :=
  if lineptr = [] then none
  else
    let word := getnextword (strtrim lineptr)
    if word = [] then none else some (strtol word)

namespace Parser

/-- The string at `lineptr`. -/
def text (p : Parser) : Except Fault (List Byte) :=
  match p.lines p.lineptr.1 with
  | none => .error .freedLine
  | some line => .ok (line.drop p.lineptr.2)

/-- The parser without its line. -/
def release (p : Parser) : Parser :=
  { p with lines := fun a => if a = p.line then none else p.lines a }

def freeLine (p : Parser) : Except Fault Parser :=
  match p.lines p.line with
  | none => .error .freedLine
  | some _ => .ok p.release

def node (p : Parser) (a : Addr) : Except Fault Node :=
  match p.heap.cells a with
  | none => .error .freedEntry
  | some node => .ok node

/-- The parser with a line in a buffer of its own. -/
def hold (line : List Byte) (offset : Nat) (p : Parser) : Parser :=
  { p with
    lines := fun a => if a = p.freshLine then some line else p.lines a
    freshLine := p.freshLine + 1
    line := p.freshLine
    offset := offset }

/-- The next line, cleaned in place. -/
def nextLine (d : Dialect) (src : List Byte) (srcLen : Nat) (p : Parser) :
    Except Fault (Option (List Byte × Parser)) :=
  if p.offset < 0 then .error .beforeBuffer
  else
    match getline src srcLen p.offset.toNat with
    | none => .ok none
    | some (line, offset) =>
      let line := d.clean line
      .ok (some (line, p.hold line offset))

/-- State `S`. -/
def outside (d : Dialect) (src : List Byte) (srcLen : Nat) (p : Parser) :
    Except Fault ((Nat × Parser) ⊕ Parser) := do
  match ← p.nextLine d src srcLen with
  | none => return .inl (d.result p.n, p)
  | some (line, p) =>
    if line = [] then
      let p ← p.freeLine
      return .inr { p with status := .S }
    else
      let word := getnextword line
      match d.outside.lookup word with
      | some status => return .inr { p with status := status, lineptr := (p.line, word.length) }
      | none => return .inr { p with status := .S }

/-- States `DEF` and `DLY`; the line is never freed. -/
def number (menu : Addr) (store : Word → Node → Node) (p : Parser) : Except Fault Parser := do
  let text ← p.text
  match numberLine text with
  | none => return { p with status := .S }
  | some value =>
    let node ← p.node menu
    return { p with status := .S, heap := p.heap.set menu (some (store value node)) }

/-- State `TIT`; the fields `entry_alloc` leaves alone are in `scratch`. -/
def openEntry (scratch : Word × Word) (p : Parser) : Except Fault Parser := do
  let text ← p.text
  let title := strtrim text
  let p ← p.freeLine
  if title ≠ [] then
    let entry := { entryAlloc with title := some title }
    let heap := p.heap.set p.heap.fresh (some ⟨entry, scratch.1, scratch.2, none⟩)
    return { p with
      status := .IN
      kernel := false
      heap := { heap with fresh := p.heap.fresh + 1 }
      entry := p.heap.fresh
      events := p.events ++ [.allocated p.heap.fresh] }
  else return { p with status := .S }

/-- State `IN`. A title line is pushed back by the length of what is left of it
after cleaning. -/
def inside (d : Dialect) (src : List Byte) (srcLen : Nat) (p : Parser) : Except Fault Parser := do
  match ← p.nextLine d src srcLen with
  | none => return { p with status := if p.kernel then .AQ else .RQ }
  | some (line, p) =>
    if line = [] then
      let p ← p.freeLine
      return { p with status := .IN }
    else
      let word := getnextword line
      let p := { p with lineptr := (p.line, word.length) }
      match d.inside.lookup word with
      | some status => return { p with status := status }
      | none =>
        let p ← p.freeLine
        if word = d.title then
          return { p with
            offset := p.offset - (line.length + 1)
            status := if p.kernel then .A else .R }
        else return { p with status := .R }

/-- States `K`, `RT`, `O`, `RD`, `DTB` and `M`. The array of modules has
`maxModules` slots; `O` does not free its line when it succeeds. -/
def direct (p : Parser) : Except Fault Parser := do
  let text ← p.text
  let node ← p.node p.entry
  match directive p.status text node.entry with
  | none =>
    let p ← p.freeLine
    return { p with status := .R }
  | some entry =>
    if maxModules < entry.modules.length then .error .moduleOverflow
    else
      let stored : Parser := { p with
        heap := p.heap.set p.entry (some { node with entry := entry })
        kernel := p.kernel || p.status == .K || p.status == .O }
      let stored ← if p.status = .O then .ok stored else stored.freeLine
      return { stored with status := .IN }

/-- The last entry of the list from `a` on. -/
def last (p : Parser) : Nat → Addr → Except Fault (Addr × Node)
  | 0, _ => .error .endlessMenu
  | fuel + 1, a => do
    let node ← p.node a
    match node.next with
    | none => return (a, node)
    | some b => p.last fuel b

/-- The loop over the list and the store into the last link, in `A` and `AQ`. -/
def append (menu : Addr) (p : Parser) : Except Fault Parser := do
  let (a, node) ← p.last (p.heap.fresh + 1) menu
  return { p with
    heap := p.heap.set a (some { node with next := some p.entry })
    events := p.events ++ [.appended p.entry] }

/-- `entry_free`. -/
def entryFree (p : Parser) : Except Fault Parser := do
  let _ ← p.node p.entry
  return { p with heap := p.heap.set p.entry none, events := p.events ++ [.freed p.entry] }

/-- One turn of the loop: the result and the state it is returned in, or the
state after the turn. -/
def turn (d : Dialect) (src : List Byte) (srcLen : Nat) (menu : Addr) (scratch : Word × Word)
    (p : Parser) : Except Fault ((Nat × Parser) ⊕ Parser) :=
  match p.status with
  | .S => p.outside d src srcLen
  | .DEF => do return .inr (← p.number menu fun value node => { node with defaultOs := value })
  | .DLY => do return .inr (← p.number menu fun value node => { node with delay := value })
  | .TIT => do return .inr (← p.openEntry scratch)
  | .IN => do return .inr (← p.inside d src srcLen)
  | .RT | .K | .O | .RD | .DTB | .M => do return .inr (← p.direct)
  | .A => do
    let p ← p.append menu
    return .inr { p with n := p.n + 1, status := .S }
  | .R => do
    let p ← p.entryFree
    return .inr { p with status := .S }
  | .AQ => do return .inl (1, ← p.append menu)
  | .RQ => do return .inl (0, ← p.entryFree)

/-- The parser before its first turn. The pointers hold nothing yet. -/
def start (heap : Heap) : Parser where
  heap := heap
  lines _ := none
  freshLine := 0
  offset := 0
  line := 0
  lineptr := (0, 0)
  status := .S
  n := 0
  kernel := false
  entry := heap.fresh
  events := []

end Parser

/-- A turn as a loop step: a fault ends the run. -/
def step (d : Dialect) (src : List Byte) (srcLen : Nat) (menu : Addr) (scratch : Word × Word)
    (p : Parser) : Except Fault (Nat × Parser) ⊕ Parser :=
  match p.turn d src srcLen menu scratch with
  | .error fault => .inl (.error fault)
  | .ok (.inl done) => .inl (.ok done)
  | .ok (.inr p) => .inr p

def parse (d : Dialect) (src : List Byte) (srcLen : Nat) (heap : Heap) (menu : Addr)
    (scratch : Word × Word) (fuel : Nat) : Option (Except Fault (Nat × Parser)) :=
  StepLoop.run (step d src srcLen menu scratch) fuel (.start heap)

/-- `fsm`. -/
def fsm := parse menuLst

/-- `kick_fsm`. -/
def kickFsm := parse kicklayout

end Parthenope.Menu
