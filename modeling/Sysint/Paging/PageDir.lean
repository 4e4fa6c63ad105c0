import Sysint.Memory

/-! Page directories of `kernel/include/paging.h`, as far as translating an
address needs them. -/
namespace Sysint.Paging

/-- A page table entry, by its flag bits and its frame. -/
structure Page where
  value : BitVec 32

def Page.present (p : Page) : Bool := p.value.getLsbD 0

def Page.rw (p : Page) : Bool := p.value.getLsbD 1

def Page.user (p : Page) : Bool := p.value.getLsbD 2

structure PageTable where
  pages : Nat → Page

structure PageDir where
  tables : Nat → Option PageTable

/-- `page_dir::get_page` without `make_table`; `addr` is a page number. A
4 MiB mapping has no table, so its pages are not found. -/
def PageDir.getPage (d : PageDir) (addr : Nat) : Option Page :=
  (d.tables (addr >>> 10)).map fun t => t.pages (addr &&& 1023)

/-- The byte at `a` lies in a page that user code may read, or write if `w`. -/
def PageDir.UserAccess (d : PageDir) (a : Nat) (w : Bool) : Prop :=
  ∃ pg, d.getPage (a >>> pageShift) = some pg ∧ pg.present = true ∧ pg.user = true ∧
    (w = true → pg.rw = true)

end Sysint.Paging
