import Foedus.Storage.PageVersionLayout
import Foedus.Thread.ThreadId

/-! # Page headers and volatile page initialization

`PageType`, `PageHeader`, `Page` and `VolatilePageInitializer` of
`foedus/storage/page.hpp`. A page is its header followed by the bytes the owning storage
lays out. `init_volatile` and `init_snapshot` store every field of the header, so the
header they leave does not depend on the memory they were given.
`VolatilePageInitializer::initialize` zero-fills the whole page before it and then runs
the storage's `initialize_more` hook.

`StorageId`, `Checksum`, `Epoch` and the page pointers are declared outside this file;
they are the 32- and 64-bit values of the header's layout comment, and `Epoch()` is the
invalid epoch 0.
-/

namespace Foedus.Storage

/-- The page types; snapshot pages store their numbers, which therefore never change. -/
inductive PageType
  | kUnknownPageType
  | kArrayPageType
  | kMasstreeIntermediatePageType
  | kMasstreeBorderPageType
  | kSequentialPageType
  | kSequentialRootPageType
  | kHashRootPageType
  | kHashBinPageType
  | kHashDataPageType
  deriving DecidableEq, Repr

namespace PageType

/-- The value of each enumerator. -/
def toUInt8 : PageType → BitVec 8
  | kUnknownPageType => 0
  | kArrayPageType => 1
  | kMasstreeIntermediatePageType => 2
  | kMasstreeBorderPageType => 3
  | kSequentialPageType => 4
  | kSequentialRootPageType => 5
  | kHashRootPageType => 6
  | kHashBinPageType => 7
  | kHashDataPageType => 8

def all : List PageType :=
  [kUnknownPageType, kArrayPageType, kMasstreeIntermediatePageType, kMasstreeBorderPageType,
    kSequentialPageType, kSequentialRootPageType, kHashRootPageType, kHashBinPageType,
    kHashDataPageType]

/-- `static_cast<PageType>` of a stored byte: the enumerator with that value, and `none` for
a byte that no enumerator has. -/
def ofUInt8 (b : BitVec 8) : Option PageType := all.find? (·.toUInt8 == b)

/-- A stored byte names a page type exactly when it is that type's value: the numbers are
distinct, and reading back a stored type gives that type. -/
theorem ofUInt8_eq_some_iff (b : BitVec 8) (t : PageType) :
    ofUInt8 b = some t ↔ t.toUInt8 = b := by
  constructor
  · intro h
    simpa using List.find?_some h
  · rintro rfl
    cases t <;> rfl

example : ofUInt8 9 = none := by decide

end PageType

abbrev StorageId := BitVec 32
abbrev Checksum := BitVec 32
abbrev SnapshotPagePointer := BitVec 64

/-- A volatile page pointer; the header stores its 64-bit `word`. -/
structure VolatilePagePointer where
  word : BitVec 64
  deriving DecidableEq, Repr

structure Epoch where
  epoch : BitVec 32
  deriving DecidableEq, Repr

/-- `Epoch()`, the invalid epoch. -/
def Epoch.invalid : Epoch := ⟨0⟩

structure PageHeader where
  pageId : BitVec 64
  storageId : StorageId
  checksum : Checksum
  /-- Holds a `PageType` value. -/
  pageType : BitVec 8
  snapshot : Bool
  root : Bool
  statLatestModifier : Thread.ThreadGroupId
  statLatestModifyEpoch : Epoch
  pageVersion : PageVersion
  deriving DecidableEq, Repr

namespace PageHeader

def getPageType (h : PageHeader) : Option PageType := PageType.ofUInt8 h.pageType

/-- The header whose bytes are all zero. -/
def zero : PageHeader := ⟨0, 0, 0, 0, false, false, 0, ⟨0⟩, ⟨0⟩⟩

/-- The stores `init_volatile` and `init_snapshot` both make; they differ in the type of the
page id and in the `snapshot_` flag. -/
def initHeader (pageId : BitVec 64) (storageId : StorageId) (pageType : PageType)
    (snapshot root : Bool) : PageHeader :=
  ⟨pageId, storageId, 0, pageType.toUInt8, snapshot, root, 0, Epoch.invalid, ⟨0⟩⟩

def initVolatile (page_id : VolatilePagePointer) (storage_id : StorageId) (page_type : PageType)
    (root : Bool) : PageHeader :=
  initHeader page_id.word storage_id page_type false root

def initSnapshot (page_id : SnapshotPagePointer) (storage_id : StorageId) (page_type : PageType)
    (root : Bool) : PageHeader :=
  initHeader page_id storage_id page_type true root

theorem initHeader_getPageType (pageId : BitVec 64) (storageId : StorageId)
    (pageType : PageType) (snapshot root : Bool) :
    (initHeader pageId storageId pageType snapshot root).getPageType = some pageType := by
  cases pageType <;> rfl

/-- The zero word is the one `initialize` builds for an unlocked page with no flags at
layer 0. -/
theorem initHeader_pageVersion (pageId : BitVec 64) (storageId : StorageId)
    (pageType : PageType) (snapshot root : Bool) :
    (initHeader pageId storageId pageType snapshot root).pageVersion =
      PageVersion.initializeVersion false false false false 0 :=
  show PageVersion.mk 0 = _ by decide

/-- `init_volatile` and `init_snapshot` store every field of the header: the page id, the
storage id, the page type and the root flag they are given, the `snapshot_` flag of their
kind, a zero checksum, thread group 0 as the latest modifier, the invalid epoch and the
unlocked zero page version, which is the word `initialize(false, false, false, false, 0)`
builds. The header they leave therefore does not depend on the memory they were given, and
it reads back the page type. -/
theorem init_header_fresh (page_id : VolatilePagePointer) (snapshot_id : SnapshotPagePointer)
    (storage_id : StorageId) (page_type : PageType) (root : Bool) :
    initVolatile page_id storage_id page_type root =
      ⟨page_id.word, storage_id, 0, page_type.toUInt8, false, root, 0, Epoch.invalid,
        PageVersion.initializeVersion false false false false 0⟩ ∧
    initSnapshot snapshot_id storage_id page_type root =
      ⟨snapshot_id, storage_id, 0, page_type.toUInt8, true, root, 0, Epoch.invalid,
        PageVersion.initializeVersion false false false false 0⟩ ∧
    (initVolatile page_id storage_id page_type root).getPageType = some page_type ∧
    (initSnapshot snapshot_id storage_id page_type root).getPageType = some page_type := by
  refine ⟨?_, ?_, initHeader_getPageType .., initHeader_getPageType ..⟩
  · rw [← initHeader_pageVersion page_id.word storage_id page_type false root]; rfl
  · rw [← initHeader_pageVersion snapshot_id storage_id page_type true root]; rfl

end PageHeader

/-- A page: its header, then the bytes of `data_`. -/
structure Page where
  header : PageHeader
  data : List (BitVec 8)
  deriving DecidableEq, Repr

/-- `std::memset(page, 0, kPageSize)`: the header and every byte after it become zero. -/
def Page.memsetZero (page : Page) : Page :=
  ⟨PageHeader.zero, List.replicate page.data.length 0⟩

/-- A `VolatilePageInitializer`; `initializeMore` is the derived class's `initialize_more`. -/
structure VolatilePageInitializer where
  storageId : StorageId
  pageType : PageType
  root : Bool
  initializeMore : Page → Page

namespace VolatilePageInitializer

def initializePage (init : VolatilePageInitializer) (page : Page)
    (page_id : VolatilePagePointer) : Page :=
  init.initializeMore { page.memsetZero with
    header := PageHeader.initVolatile page_id init.storageId init.pageType init.root }

/-- `kDummyPageInitializer`, the `DummyVolatilePageInitializer`: storage 0, the unknown page
type, a root page, and an `initialize_more` that does nothing. -/
def kDummyPageInitializer : VolatilePageInitializer := ⟨0, .kUnknownPageType, true, id⟩

end VolatilePageInitializer

end Foedus.Storage
