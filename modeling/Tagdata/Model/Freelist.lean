import Tagdata.Model.Page

/-!
# The freelist

`Freelist` keeps the pages that can be handed out (a sorted set) and the pages that a
transaction has retired, by the id of that transaction.  `TxFreelist` is the copy a
transaction works on, with the blocks it has written so far.
-/

set_option autoImplicit false

namespace Tagdata.Model

open Tagdata.Library

/-- `freelist.rs`: free pages ascending, and pending pages by retiring transaction. -/
structure Freelist where
  freePages : List Nat
  pendingPages : List (Nat × List Nat)
deriving DecidableEq, Repr

namespace Freelist

/-- `Freelist::new`. -/
def new : Freelist := ⟨[], []⟩

/-- `BTreeSet::insert`. -/
def insertFree (p : Nat) : List Nat → List Nat
  | [] => [p]
  | q :: l => if p < q then p :: q :: l else if p = q then q :: l else q :: insertFree p l

/-- `free`: adds the page to the pages retired by the transaction. -/
def free (f : Freelist) (txId : Nat) (pageId : Nat) : Freelist :=
  { f with pendingPages := OrdMap.adjust txId [] (· ++ [pageId]) f.pendingPages }

/-- `init`: an entry with id 0 is free, every other one is pending. -/
def init (f : Freelist) : List RetiredPage → Freelist
  | [] => f
  | e :: es =>
      if e.retiredTxId = 0 then
        init { f with freePages := insertFree e.pageId f.freePages } es
      else init (f.free e.retiredTxId e.pageId) es

/-- The loop of `release`: ascending ids, stopping at the first that is not below `txId`. -/
def releaseLoop (txId : Nat) :
    List Nat → List (Nat × List Nat) → List Nat × List (Nat × List Nat)
  | free, [] => (free, [])
  | free, (other, pages) :: rest =>
      if other < txId then
        releaseLoop txId (pages.foldl (fun acc p => insertFree p acc) free) rest
      else (free, (other, pages) :: rest)

/-- `release`: frees the pages of every transaction with an id below `txId`. -/
def release (f : Freelist) (txId : Nat) : Freelist :=
  let r := releaseLoop txId f.freePages f.pendingPages
  ⟨r.1, r.2⟩

/-- The scan of `allocate`: the start of the first run of `numPages` consecutive pages. -/
def scan (numPages : Nat) (start prev : Nat) : List Nat → Option Nat
  | [] => none
  | id :: rest =>
      let start := if prev = 0 ∨ id - prev ≠ 1 then id else start
      if id - start + 1 = numPages then some start else scan numPages start id rest

/-- `allocate`: takes the first run of `numPages` consecutive free pages. -/
def allocate (f : Freelist) (numPages : Nat) : Option (Nat × Freelist) :=
  match scan numPages 0 0 f.freePages with
  | none => none
  | some found =>
      if 0 < found then
        some (found,
          { f with freePages := f.freePages.filter fun p => ¬(found ≤ p ∧ p < found + numPages) })
      else none

/-- `pages().len()`: free pages and pending pages. -/
def pageCount (f : Freelist) : Nat :=
  f.freePages.length + (f.pendingPages.map fun e => e.2.length).sum

/-- `entries`: what the freelist block stores, sorted by page. -/
def entries (f : Freelist) : List RetiredPage :=
  (f.freePages.map (fun p => RetiredPage.mk p 0) ++
    f.pendingPages.flatMap fun e => e.2.map fun p => RetiredPage.mk p e.1).insertionSort
      fun x y => x.pageId ≤ y.pageId

/-- `size`: the bytes of the header and of one `RetiredPage` for each page. -/
def size (f : Freelist) : Nat := headerSize + 16 * f.pageCount

end Freelist

/-- `CHECKSUM_SIZE`. -/
def checksumSize : Nat := 32

/-- `freelist.rs`: the freelist of one transaction and the blocks it has allocated. -/
structure TxFreelist where
  txMeta : Meta
  inner : Freelist
  pages : List (Nat × Page)
deriving DecidableEq, Repr

namespace TxFreelist

/-- `TxFreelist::new`. -/
def new (m : Meta) (inner : Freelist) : TxFreelist := ⟨m, inner, []⟩

/-- `free`: retires the pages of a block under this transaction. -/
def free (fl : TxFreelist) (pageId numPages : Nat) : TxFreelist :=
  { fl with
    inner := (List.range' pageId numPages).foldl (fun f id => f.free fl.txMeta.txId id) fl.inner }

/-- The number of pages that hold `bytes` and the trailing checksum. -/
def pagesFor (pagesize bytes : Nat) : Nat :=
  let required := bytes + checksumSize
  if required % pagesize = 0 then required / pagesize else required / pagesize + 1

/-- `allocate`: a block from the freelist, or else from the end of the file.  The memory of the
block, and so the error of a size that has no layout, is left to `allocateBlock`. -/
def allocate (fl : TxFreelist) (bytes : Nat) : Except Fault (Page × TxFreelist) :=
  if bytes < headerSize then
    throw (.panic s!"cannot allocate {bytes} bytes, minimum is {headerSize}, true")
  else
    let numPages := pagesFor fl.txMeta.pagesize bytes
    let (pageId, inner, total) :=
      match fl.inner.allocate numPages with
      | some (pageId, inner) => (pageId, inner, fl.txMeta.numPages)
      | none => (fl.txMeta.numPages, fl.inner, fl.txMeta.numPages + numPages)
    let page : Page := ⟨pageId, numPages - 1, .zeroed⟩
    pure (page,
      { txMeta := { fl.txMeta with numPages := total }
        inner := inner
        pages := OrdMap.insert pageId page fl.pages })

/-- Fills a block that was allocated before. -/
def fill (fl : TxFreelist) (page : Page) : TxFreelist :=
  { fl with pages := OrdMap.insert page.id page fl.pages }

/-- `write_data`: retires the old freelist block and writes the freelist to a new one, whose
size is taken before the block is allocated. -/
def writeFreelist (fl : TxFreelist) (freelistPage numFreelistPages : Nat) :
    Except Fault (Page × TxFreelist) := do
  let fl := fl.free freelistPage numFreelistPages
  let (page, fl) ← fl.allocate fl.inner.size
  let page := { page with body := .freelist fl.inner.entries }
  pure (page, fl.fill page)

end TxFreelist

end Tagdata.Model
