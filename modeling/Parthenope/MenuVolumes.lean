import Parthenope.MenuFound

/-! The menu of a disk, by what is on its partitions. A volume is what its paths lead to;
the devices only have to read it. All entries come from the volumes, in their order, and
each is booted from the volume it is in or the one that it names. -/
namespace Parthenope.Menu
open CString LinkedList StepLoop

/-- What paths lead to. -/
abbrev Volume := List Byte → Option (List Byte)

namespace Volume

/-- A file with something in it. -/
def filled (v : Volume) (path : List Byte) : Option (List Byte) := (v path).filter fun content => content ≠ []

/-- The menu file, for its parser. -/
def menu (v : Volume) : Option (Dialect × List Byte) :=
  ((v.filled (chars "menu.lst")).map fun content => (menuLst, content)).or
    (((v.filled (chars "boot/menu.lst")).map fun content => (menuLst, content)).or
      ((v.filled (chars "Kickstart/Kicklayout")).map fun content => (kicklayout, content)))

end Volume

def menuPaths : List (List Byte) := [chars "menu.lst", chars "boot/menu.lst", chars "Kickstart/Kicklayout"]

/-- The entries of the volumes on some partitions, each with its partition. -/
def shown (volumes : Nat → Option Volume) (books : Nat → Book) (l : List Nat) : List (Nat × Entry) :=
  l.flatMap fun i => (volumes i).elim [] fun _ => (books i).close.added.map (Prod.mk i)

namespace Devices
variable {Device Partition : Type} (s : Devices Device Partition)

end Devices

/-- The volume that an entry of a disk names. -/
def named (volumes : Nat → Option Volume) (n : Nat) (entry : Entry) : Option Volume :=
  let i := (entry.partition.setWidth 8).toNat
  if i < n then volumes i else none

section
variable {Device Partition : Type} {s : Devices Device Partition} {dev : Device} {v : Volume} {path : List Byte}
  {volumes : Nat → Option Volume} {books : Nat → Book} {n k : Nat} {paths : List (List Byte)}
  {heap : Heap} {entry : Entry}
  {l : List Nat} {b : Book}

end

end Parthenope.Menu
