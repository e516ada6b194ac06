import Pintos.Devices.Block

/-! Page directories (`userprog/pagedir.c`): which frame a user page is mapped to, with the
writable, accessed and dirty bits of its entry.  A page directory entry says whether a page table
exists; a fresh page table has no page present. -/

namespace Pintos

/-- `PGSIZE`. -/
def pgSize : Nat := 4096

/-- `PHYS_BASE`. -/
def physBase : Nat := 0xc0000000

def pgRoundDown (vaddr : Nat) : Nat := vaddr / pgSize * pgSize

/-- A page table entry; `page` is the frame it maps. -/
structure Pte where
  page : Nat
  present : Bool
  writable : Bool
  accessed : Bool
  dirty : Bool
  deriving DecidableEq

/-- A page directory: for each `pd_no` whether there is a page table, and for each user page its
page table entry. -/
structure Pagedir where
  pde : Nat → Bool
  pte : Nat → Pte

namespace Pagedir

/-- The entry of a cleared page table. -/
def zeroPte : Pte := ⟨0, false, false, false, false⟩

/-- `pagedir_create`. -/
def empty : Pagedir := ⟨fun _ => false, fun _ => zeroPte⟩

def pdNo (vaddr : Nat) : Nat := vaddr / 2 ^ 22

/-- `lookup_page` without `create`. -/
def lookupPage (pd : Pagedir) (vaddr : Nat) : Option Pte :=
  if pd.pde (pdNo vaddr) then some (pd.pte (pgRoundDown vaddr)) else none

/-- A change of the entry that `lookup_page` finds. -/
def modifyPte (pd : Pagedir) (vaddr : Nat) (f : Pte → Pte) : Pagedir :=
  if pd.pde (pdNo vaddr) then
    { pd with
      pte := Function.update pd.pte (pgRoundDown vaddr) (f (pd.pte (pgRoundDown vaddr))) }
  else pd

/-- `pagedir_get_page`: the frame of a present page. -/
def getPage (pd : Pagedir) (uaddr : Nat) : Option Nat :=
  match pd.lookupPage uaddr with
  | some pte => if pte.present then some pte.page else none
  | none => none

def clearPage (pd : Pagedir) (upage : Nat) : Pagedir :=
  pd.modifyPte upage fun pte => { pte with present := false }

def isDirty (pd : Pagedir) (vpage : Nat) : Bool := (pd.lookupPage vpage).any (·.dirty)

def isAccessed (pd : Pagedir) (vpage : Nat) : Bool := (pd.lookupPage vpage).any (·.accessed)

def setAccessed (pd : Pagedir) (vpage : Nat) (accessed : Bool) : Pagedir :=
  pd.modifyPte vpage fun pte => { pte with accessed }

/-- What the processor does to the entry of a page that is read or written. -/
def touch (pd : Pagedir) (vaddr : Nat) (write : Bool) : Pagedir :=
  pd.modifyPte vaddr fun pte => { pte with accessed := true, dirty := pte.dirty || write }

/-- `pagedir_set_page`, where `freePages` counts the free pages of the kernel pool: `lookup_page`
takes one for a missing page table, and without one the result is `none`. -/
def setPage (pd : Pagedir) (freePages upage kpage : Nat) (writable : Bool) :
    Except Fault (Option (Nat × Pagedir)) :=
  let new : Pte := ⟨kpage, true, writable, false, false⟩
  if upage % pgSize ≠ 0 then .error (.assertion "pg_ofs (upage) == 0")
  else if physBase ≤ upage then .error (.assertion "is_user_vaddr (upage)")
  else if pd.pde (pdNo upage) then
    if (pd.pte upage).present then .error (.assertion "(*pte & PTE_P) == 0")
    else .ok (some (freePages, { pd with pte := Function.update pd.pte upage new }))
  else if freePages = 0 then .ok none
  else
    -- the new page table is zeroed, so the other pages of its region are not present
    let pte := fun v => if pdNo v = pdNo upage then zeroPte else pd.pte v
    .ok (some (freePages - 1,
      ⟨Function.update pd.pde (pdNo upage) true, Function.update pte upage new⟩))

/-- The permission with which a page is mapped, if it is present. -/
def permission (pd : Pagedir) (upage : Nat) : Option Bool :=
  match pd.lookupPage upage with
  | some pte => if pte.present then some pte.writable else none
  | none => none

end Pagedir

end Pintos
