import Mathlib.Data.List.Find
import Pintos.Filesys.PathLookup

/-! The lock of a `struct dir`.  `dir_add` and `dir_remove` take it first, and what matters is on which
of their ways out they have given it back. -/

namespace Pintos

namespace Handles

open Routine (wp)
open State

variable {env : Nat → Draw} {w w' : State} {d p q s : Nat} {inode : Inode} {dir : Dir}
  {E : Fault → Prop}

/-! ### Opening inodes -/

/-- What holds of the inodes in memory whatever is open. -/
structure Live (w : State) : Prop where
  fresh : w.Fresh
  listed : ∀ p, p ∈ w.openInodes ↔ w.inodes p ≠ none

/-- The free map is the same, and so is what it was allocated for. -/
structure SameMap (w w' : State) : Prop where
  freeMap : w'.freeMap = w.freeMap
  extents : w'.extents = w.extents

theorem SameMap.trans {w1 : State} (h : SameMap w w1) (h' : SameMap w1 w') : SameMap w w' :=
  ⟨h'.freeMap.trans h.freeMap, h'.extents.trans h.extents⟩

/-- Inodes were opened, but not those of sectors with `P`. -/
structure OpensOff (P : Nat → Prop) (w w' : State) : Prop where
  live : Live w'
  opens : Opens w w'
  map : SameMap w w'
  find : ∀ s, P s → w'.findInode s = w.findInode s
  same : ∀ p inode, w.inodes p = some inode → P inode.sector → w'.inodes p = some inode

theorem OpensOff.refl {P : Nat → Prop} (h : Live w) : OpensOff P w w :=
  ⟨h, Opens.refl h.fresh, ⟨rfl, rfl⟩, fun _ _ => rfl, fun _ _ hp _ => hp⟩

theorem OpensOff.trans {P : Nat → Prop} {w1 : State} (h : OpensOff P w w1)
    (h' : OpensOff P w1 w') : OpensOff P w w' :=
  ⟨h'.live, h.opens.trans h'.opens, h.map.trans h'.map,
    fun s hs => (h'.find s hs).trans (h.find s hs),
    fun p inode hp hs => h'.same p inode (h.same p inode hp hs) hs⟩

theorem OpensOff.mono {P Q : Nat → Prop} (h : OpensOff Q w w') (hPQ : ∀ s, P s → Q s) :
    OpensOff P w w' :=
  ⟨h.live, h.opens, h.map, fun s hs => h.find s (hPQ s hs), fun p i hp hs => h.same p i hp (hPQ _ hs)⟩

theorem Live.setDir (h : Live w) (hd : w.dirs d = some dir) (dir' : Dir) :
    Live (w.setDir d dir') := by
  refine ⟨fun p hp => ⟨(h.fresh p hp).1, ?_⟩, h.listed⟩
  change Function.update w.dirs d (some dir') p = none
  rw [Function.update_of_ne]
  · exact (h.fresh p hp).2
  · rintro rfl
    rw [(h.fresh p hp).2] at hd
    nomatch hd

/-- A call that changes a directory. -/
inductive DirCall where
  | add (name : List UInt8) (inodeSector : Nat) (isDir : Bool)
  | remove (name : List UInt8)

def DirCall.exec (env : Nat → Draw) (current d : Nat) : DirCall → HandleRoutine Bool
  | .add name inodeSector isDir => dirAdd env current d name inodeSector isDir
  | .remove name => dirRemove env current d name

/-- The entries of the open directory `d`. -/
def State.entriesOf (w : State) (d : Nat) : List (Option Entry) :=
  ((w.dirs d).bind fun dir => w.inodes dir.inode).elim [] fun inode => w.entries inode.sector

end Handles

end Pintos
