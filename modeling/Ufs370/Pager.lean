import Ufs370.Basic

/-! The page cache of a disk: hits are written back later, misses are written through. -/

namespace Ufs370

open Lib

structure Page where
  lru : Nat
  dirty : Nat
  used : Nat
  block : Nat
  buf : Block

/-- The pager with the disk it serves; `readonly` is the disk's `DISP=SHR` flag. -/
structure Pager where
  store : Store
  readonly : Bool
  maxpages : Nat
  pages : List Page
  cachehits : Nat
  reads : Nat
  writes : Nat
  dreads : Nat
  dwrites : Nat

/-- The block number of a page that holds no block yet, `(UINT32) -1`. -/
def noBlock : Nat := 4294967295

def pagerNew (store : Store) (readonly : Bool) (maxpages : Nat) : Pager :=
  { store, readonly, maxpages, pages := [], cachehits := 0, reads := 0, writes := 0,
    dreads := 0, dwrites := 0 }

def pageNew (now : Nat) : Page :=
  { lru := now, dirty := 0, used := 0, block := noBlock, buf := zeroBlock }

def pagerInc (counter reset : Nat) : Nat :=
  if counter = 4294967295 then reset else counter + 1

namespace Pager

def onStore {α : Type} (x : Prog Store α) : Prog Pager α :=
  Prog.lift Pager.store (fun s p => { p with store := s }) x

/-- The page an `UFSPAGE` pointer refers to: pages are never moved or dropped. -/
def page (p : Pager) (n : Nat) : Page := p.pages.getD n (pageNew 0)

def setPage (n : Nat) (f : Page → Page) : Prog Pager Unit :=
  Prog.modify fun p => { p with pages := p.pages.modify n f }

end Pager

def diskRead (block : Nat) : Prog Pager (Except Rc Block) := Pager.onStore (Store.read block)

def diskWrite (buf : Block) (block : Nat) : Prog Pager Rc := do
  if (← Prog.get).readonly then
    return .erofs
  Pager.onStore (Store.write buf block)

def pagerFindBlock (p : Pager) (block : Nat) : Option Nat :=
  p.pages.findIdx? fun pg => decide (pg.block = block)

/-- The scan for the page used least, the one not used for longest where that is a tie. -/
def lruScan : Option (Nat × Page) → Nat → List Page → Option (Nat × Page)
  | best, _, [] => best
  | none, n, p :: ps => lruScan (some (n, p)) (n + 1) ps
  | some (m, page), n, p :: ps =>
    if p.used < page.used then lruScan (some (n, p)) (n + 1) ps
    else if p.used = page.used ∧ p.lru < page.lru then lruScan (some (n, p)) (n + 1) ps
    else lruScan (some (m, page)) (n + 1) ps

/-- The `newpage:` exit of `ufs_pager_lru_page`. -/
def pagerNewPage (now : Nat) : Prog Pager (Option Nat) := do
  if ← Pager.onStore Store.alloc then
    let n := (← Prog.get).pages.length
    Prog.modify fun p => { p with pages := p.pages ++ [pageNew now] }
    return some n
  else
    return none

def pagerLruPage (now : Nat) : Prog Pager (Option Nat) := do
  let p ← Prog.get
  if p.pages.length < p.maxpages then
    pagerNewPage now
  else
    match lruScan none 0 p.pages with
    | some (n, _) => return some n
    | none => pagerNewPage now

def pageFlush (n : Nat) : Prog Pager Rc := do
  let page := (← Prog.get).page n
  let rc ← diskWrite page.buf page.block
  if rc ≠ .ok then
    return rc
  Prog.modify fun p => { p with dwrites := pagerInc p.dwrites 1 }
  Pager.setPage n fun page => { page with dirty := 0 }
  return .ok

/-- The hit of a read or a write on page `n`. -/
def pagerHit (now n : Nat) : Prog Pager Unit := do
  Prog.modify fun p => { p with cachehits := pagerInc p.cachehits 1 }
  Pager.setPage n fun page => { page with used := pagerInc page.used 1, lru := now }

/-- The page a miss may reuse, saved first if it is dirty. -/
def pagerTakePage (now : Nat) : Prog Pager (Option Nat × Rc) := do
  match ← pagerLruPage now with
  | none => return (none, .nopage)
  | some n =>
    if ((← Prog.get).page n).dirty ≠ 0 then
      return (some n, ← pageFlush n)
    else
      return (some n, .ok)

/-- The page of a miss now holds `block`. -/
def pagerReset (now n block : Nat) (buf : Block) : Prog Pager Unit :=
  Pager.setPage n fun _ => { lru := now, dirty := 0, used := 1, block, buf }

def pagerRead (now block : Nat) : Prog Pager (Except Rc Block) := do
  Prog.modify fun p => { p with reads := pagerInc p.reads 0 }
  match pagerFindBlock (← Prog.get) block with
  | some n =>
    pagerHit now n
    return .ok ((← Prog.get).page n).buf
  | none =>
    match ← pagerTakePage now with
    | (none, rc) => return .error rc
    | (some n, rc) =>
      if rc ≠ .ok then
        return .error rc
      match ← diskRead block with
      | .error rc => return .error rc
      | .ok buf =>
        Prog.modify fun p => { p with dreads := pagerInc p.dreads 1 }
        pagerReset now n block buf
        return .ok buf

/-- A miss is written to the disk before a page is found for it, and a missing page
is no failure: the block is on the disk. -/
def pagerWrite (now block : Nat) (buf : Block) : Prog Pager Rc := do
  Prog.modify fun p => { p with writes := pagerInc p.writes 0 }
  match pagerFindBlock (← Prog.get) block with
  | some n =>
    pagerHit now n
    Pager.setPage n fun page => { page with buf, dirty := u32 (page.dirty + 1) }
    return .ok
  | none =>
    let rc ← diskWrite buf block
    if rc ≠ .ok then
      return rc
    Prog.modify fun p => { p with dwrites := pagerInc p.dwrites 1 }
    match ← pagerTakePage now with
    | (none, _) => return .ok
    | (some n, rc) =>
      if rc ≠ .ok then
        return rc
      pagerReset now n block buf
      return .ok

/-- The loop of `ufs_pager_flush` from page `n` on, `count` pages to go. -/
def pagerFlushFrom : Nat → Nat → Prog Pager Rc
  | 0, _ => return .ok
  | count + 1, n => do
    if ((← Prog.get).page n).dirty ≠ 0 then
      let rc ← pageFlush n
      if rc ≠ .ok then
        return rc
      pagerFlushFrom count (n + 1)
    else
      pagerFlushFrom count (n + 1)

def pagerFlush : Prog Pager Rc := do
  pagerFlushFrom (← Prog.get).pages.length 0

end Ufs370
