import Parthenope.Menu

/-! The front ends in `menu.c`, which let the user choose an entry: `menu_display` in a
box on the screen and `menu_display_serial` on a serial line. Both walk the list by its
links; what they show is kept as text. -/
namespace Parthenope.Menu
open CString

inductive DisplayFault
  | nullEntry
  | freedEntry
  | noTitle
  | titleOverflow
  | endlessMenu
  deriving DecidableEq

/-- A call of `video_draw_text`. -/
structure Text where
  x : Nat
  y : Nat
  attr : Nat
  text : List Byte
  field : Nat
  deriving DecidableEq

/-- The static `first` and `last` of `display`. -/
structure Window where
  first : Int
  last : Int
  deriving DecidableEq

def Window.initial : Window where
  first := 0
  last := 10

/-- The first entry shown, where one is selected. -/
def Window.scroll (w : Window) (selected : Int) : Int :=
  let first := if selected < w.first then w.first - 1 else w.first
  if selected > w.last then first + 1 else first

/-- What a call of `display` returns, draws and leaves in its statics. -/
structure Shown where
  sentry : Option Addr
  rows : List Text
  window : Window

/-- What `menu_display` asks of the firmware: the variable `stdout`, whether a key is
there when it looks for the `k`-th time, the key then read on a serial line and the
`k`-th key read from the keyboard. -/
structure Console where
  stdout : List Byte
  tstc : Nat → Bool
  getc : Word
  videoGetKey : Nat → Word

/-- The bytes of `buff`. -/
def buffSize : Nat := 100

/-- `sprintf (buff, " %s", title)`. -/
def titleText (title : Option (List Byte)) : Except DisplayFault (List Byte) :=
  match title with
  | none => .error .noTitle
  | some title => if buffSize < title.length + 2 then .error .titleOverflow else .ok (blank :: title)

/-- Row `i` of the box. -/
def rowText (first selected : Int) (i : Nat) (buff : List Byte) : Text where
  x := 6
  y := 8 + i
  attr := if i + first = selected then 2 else 0
  text := buff
  field := 68

/-- The letter of entry `i` on a serial line. -/
def letter (i : Nat) : Byte := 97 + BitVec.ofNat 8 i

namespace Heap

def entryAt (heap : Heap) (entry : Option Addr) : Except DisplayFault Node :=
  match entry with
  | none => .error .nullEntry
  | some a =>
    match heap.cells a with
    | none => .error .freedEntry
    | some node => .ok node

/-- Some links further: `first` of them, and none where it is negative. -/
def skip (heap : Heap) : Nat → Option Addr → Except DisplayFault (Option Addr)
  | 0, self => .ok self
  | n + 1, self => do heap.skip n (← heap.entryAt self).next

/-- The rows from row `i` on, in a box with room for so many more. -/
def drawRows (heap : Heap) (first selected : Int) :
    Nat → Nat → Option Addr → Option Addr → Except DisplayFault (List Text × Option Addr)
  | 0, _, _, sentry => .ok ([], sentry)
  | _ + 1, _, none, sentry => .ok ([], sentry)
  | room + 1, i, some a, sentry => do
    let node ← heap.entryAt (some a)
    let buff ← titleText node.entry.title
    let sentry := if i + first = selected then some a else sentry
    let (rows, sentry) ← heap.drawRows first selected room (i + 1) node.next sentry
    return (rowText first selected i buff :: rows, sentry)

/-- `display`. -/
def display (heap : Heap) (self : Addr) (selected : Int) (w : Window) : Except DisplayFault Shown := do
  let first := w.scroll selected
  let self ← heap.skip first.toNat (some self)
  let entry := (← heap.entryAt self).next
  let (rows, sentry) ← heap.drawRows first selected 11 0 entry none
  return ⟨sentry, rows, ⟨first, first + rows.length - 1⟩⟩

/-- The number of the last entry, from -2 for no entry and no head. -/
def countMax (heap : Heap) : Nat → Option Addr → Int → Except DisplayFault Int
  | 0, _, _ => .error .endlessMenu
  | _ + 1, none, max => .ok max
  | fuel + 1, some a, max => do heap.countMax fuel (← heap.entryAt (some a)).next (max + 1)

/-- The walk to the first entry whose number, counted from `i`, is as wanted. -/
def search (heap : Heap) (wanted : Nat → Bool) : Nat → Nat → Option Addr → Except DisplayFault (Option Addr)
  | 0, _, _ => .error .endlessMenu
  | _ + 1, _, none => .ok none
  | fuel + 1, i, some a =>
    if wanted i then .ok (some a)
    else do heap.search wanted fuel (i + 1) (← heap.entryAt (some a)).next

/-- The lines printed for the entries, each with its letter and whether it is starred. -/
def printEntries (heap : Heap) (selected : Int) :
    Nat → Nat → Option Addr → Except DisplayFault (List (Byte × Bool × List Byte))
  | 0, _, _ => .error .endlessMenu
  | _ + 1, _, none => .ok []
  | fuel + 1, i, some a => do
    let node ← heap.entryAt (some a)
    match node.entry.title with
    | none => .error .noTitle
    | some title =>
      let lines ← heap.printEntries selected fuel (i + 1) node.next
      return (letter i, decide ((i : Int) = selected), title) :: lines

/-- `max` and the entry selected at first. -/
def selection (heap : Heap) (self : Addr) : Except DisplayFault (Int × Int) := do
  let max ← heap.countMax (heap.fresh + 2) (some self) (-2)
  let head ← heap.entryAt (some self)
  return (max, if head.defaultOs.toInt ≤ max then head.defaultOs.toInt else max)

end Heap

/-- What is left of the delay when a key ends the countdown: nothing where none does. -/
def countdown (tstc : Nat → Bool) : Nat → Nat → Nat
  | _, 0 => 0
  | k, delay + 1 => if tstc k then delay + 1 else countdown tstc (k + 1) delay

/-- `menu_display_serial`: the entry and the lines printed. -/
def menuDisplaySerial (heap : Heap) (self : Addr) (console : Console) :
    Except DisplayFault (Option Addr × List (Byte × Bool × List Byte)) := do
  let (_, selected) ← heap.selection self
  let head ← heap.entryAt (some self)
  let lines ← heap.printEntries selected (heap.fresh + 1) 0 head.next
  let delay := countdown console.tstc 0 (head.delay * 100).toNat
  if delay = 0 then
    let entry ← heap.search (fun i => (i : Int) = selected) (heap.fresh + 1) 0 head.next
    return (entry, lines)
  else if console.getc = 122 then return (none, lines)
  else
    let entry ← heap.search (fun i => (letter i).setWidth 32 = console.getc) (heap.fresh + 1) 0 head.next
    return (entry, lines)

/-- The loop of `menu_display`: the entry selected, the statics and the keys read. -/
structure Choice where
  selected : Int
  window : Window
  asked : Nat

/-- The entry selected after a key. -/
def moved (max selected : Int) (key : Word) : Int :=
  let selected := if key = 4 ∧ selected > 0 then selected - 1 else selected
  if key = 3 ∧ selected < max then selected + 1 else selected

/-- A turn of the loop: 3 and 4 move, 117 leaves, 1 and 6 accept. -/
def keyTurn (heap : Heap) (self : Addr) (max : Int) (videoGetKey : Nat → Word) (c : Choice) :
    Except DisplayFault (Option Addr × Window) ⊕ Choice :=
  match heap.display self c.selected c.window with
  | .error fault => .inl (.error fault)
  | .ok shown =>
    let key := videoGetKey c.asked
    if key = 117 then .inl (.ok (none, shown.window))
    else if key = 1 ∨ key = 6 then .inl (.ok (shown.sentry, shown.window))
    else .inr ⟨moved max c.selected key, shown.window, c.asked + 1⟩

/-- The part of `menu_display` for the screen. -/
def menuDisplayVga (heap : Heap) (self : Addr) (console : Console) (w : Window) (fuel : Nat) :
    Option (Except DisplayFault (Option Addr × Window)) :=
  match (do return (← heap.selection self, ← heap.entryAt (some self))) with
  | .error fault => some (.error fault)
  | .ok ((max, selected), head) =>
    let keys (w : Window) :=
      StepLoop.run (keyTurn heap self max console.videoGetKey) fuel ⟨selected, w, 0⟩
    let delay := head.delay * 100
    if delay.toInt ≤ 0 then keys w
    else
      match heap.display self selected w with
      | .error fault => some (.error fault)
      | .ok shown =>
        if countdown console.tstc 0 delay.toNat = 0 then some (.ok (shown.sentry, shown.window))
        else keys shown.window

/-- `menu_display`. -/
def menuDisplay (heap : Heap) (self : Addr) (console : Console) (w : Window) (fuel : Nat) :
    Option (Except DisplayFault (Option Addr × Window)) :=
  if console.stdout = chars "vga" then menuDisplayVga heap self console w fuel
  else some ((menuDisplaySerial heap self console).map fun r => (r.1, w))

end Parthenope.Menu
