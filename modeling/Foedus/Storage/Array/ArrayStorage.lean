import Foedus.Storage.Page

/-! # The array storage factory

`ArrayStorageFactory::get_instance` and `is_right_metadata`, and the range of
`ArrayStorage::prefetch_pages`, of `foedus/storage/array/array_storage.cpp`. The factory
checks that the metadata it is handed is an `ArrayMetadata` with a nonzero payload size
and a nonzero array size before it stores a new `ArrayStorage` through its out-parameter;
a rejected request returns its error code and leaves that parameter alone.

`ArrayMetadata` is declared outside this file; its sizes appear here as the natural
numbers the factory compares with zero. The engine, the logging and the storage's
implementation object, which `get_instance` passes on untouched, are not modelled.
-/

namespace Foedus.Storage.Array

/-- The codes `get_instance` returns. -/
inductive ErrorCode
  | kErrorCodeOk
  | kErrorCodeStrWrongMetadataType
  | kErrorCodeStrArrayInvalidOption
  deriving DecidableEq, Repr

/-- An `ErrorStack`, by its code; `ERROR_STACK(code)` is `⟨code⟩`. -/
structure ErrorStack where
  errorCode : ErrorCode
  deriving DecidableEq, Repr

def kRetOk : ErrorStack := ⟨.kErrorCodeOk⟩

abbrev ArrayOffset := ℕ

/-- The fields of `ArrayMetadata` that the factory reads. -/
structure ArrayMetadata where
  id : StorageId
  payloadSize : ℕ
  arraySize : ArrayOffset
  deriving DecidableEq, Repr

/-- The `Metadata` object handed to the factory: an `ArrayMetadata`, or the metadata of
another storage type. -/
inductive Metadata
  | arrayMetadata (m : ArrayMetadata)
  | other
  deriving DecidableEq, Repr

/-- `dynamic_cast<const ArrayMetadata*>`. -/
def Metadata.asArrayMetadata : Metadata → Option ArrayMetadata
  | arrayMetadata m => some m
  | other => none

/-- An `ArrayStorage` object: the metadata it was built from and its `create` flag. -/
structure ArrayStorage where
  metadata : ArrayMetadata
  create : Bool
  deriving DecidableEq, Repr

/-- The end of the range `prefetch_pages` passes on: `to = 0` stands for the array's end. -/
def ArrayStorage.prefetchPagesRange (s : ArrayStorage) (from_ to_ : ArrayOffset) :
    ArrayOffset × ArrayOffset :=
  (from_, if to_ = 0 then s.metadata.arraySize else to_)

/-- `get_instance(engine, metadata, storage)`: the returned error stack and the value
`*storage` holds afterwards. -/
def getInstance (metadata : Metadata) (storage : Option ArrayStorage) :
    ErrorStack × Option ArrayStorage :=
  match metadata.asArrayMetadata with
  | none => (⟨.kErrorCodeStrWrongMetadataType⟩, storage)
  | some casted =>
    if casted.payloadSize = 0 then (⟨.kErrorCodeStrArrayInvalidOption⟩, storage)
    else if casted.arraySize = 0 then (⟨.kErrorCodeStrArrayInvalidOption⟩, storage)
    else (kRetOk, some ⟨casted, false⟩)

def isRightMetadata (metadata : Metadata) : Bool := metadata.asArrayMetadata.isSome

/-- What `get_instance` can do: reject metadata of another type, reject an array metadata
with a zero size, or store a storage built from the array metadata. -/
theorem getInstance_cases (metadata : Metadata) (storage : Option ArrayStorage) :
    (isRightMetadata metadata = false ∧
      getInstance metadata storage = (⟨.kErrorCodeStrWrongMetadataType⟩, storage)) ∨
    (∃ m, metadata = .arrayMetadata m ∧ (m.payloadSize = 0 ∨ m.arraySize = 0) ∧
      getInstance metadata storage = (⟨.kErrorCodeStrArrayInvalidOption⟩, storage)) ∨
    (∃ m, metadata = .arrayMetadata m ∧ m.payloadSize ≠ 0 ∧ m.arraySize ≠ 0 ∧
      getInstance metadata storage = (kRetOk, some ⟨m, false⟩)) := by
  cases metadata with
  | other => exact .inl ⟨rfl, rfl⟩
  | arrayMetadata m =>
    simp only [getInstance, Metadata.asArrayMetadata]
    split_ifs with hp ha
    · exact .inr (.inl ⟨m, rfl, .inl hp, rfl⟩)
    · exact .inr (.inl ⟨m, rfl, .inr ha, rfl⟩)
    · exact .inr (.inr ⟨m, rfl, hp, ha, rfl⟩)

/-- `get_instance` succeeds exactly on an `ArrayMetadata` with a nonzero payload size and a
nonzero array size, and then stores a storage built from that metadata, not for creation.
Every failure leaves `*storage` as it was, and it is `kErrorCodeStrWrongMetadataType`
exactly when `is_right_metadata` rejects the metadata. -/
theorem get_instance_checks (metadata : Metadata) (storage : Option ArrayStorage) :
    ((getInstance metadata storage).1 = kRetOk ↔
      ∃ m, metadata = .arrayMetadata m ∧ m.payloadSize ≠ 0 ∧ m.arraySize ≠ 0) ∧
    ((getInstance metadata storage).1 = kRetOk →
      ∃ m, metadata = .arrayMetadata m ∧
        (getInstance metadata storage).2 = some ⟨m, false⟩) ∧
    ((getInstance metadata storage).1 ≠ kRetOk → (getInstance metadata storage).2 = storage) ∧
    ((getInstance metadata storage).1 = ⟨.kErrorCodeStrWrongMetadataType⟩ ↔
      isRightMetadata metadata = false) := by
  rcases getInstance_cases metadata storage with
    ⟨hr, h⟩ | ⟨m, rfl, hz, h⟩ | ⟨m, rfl, hp, ha, h⟩
  · rw [h, hr]
    refine ⟨⟨nofun, ?_⟩, nofun, fun _ => rfl, iff_of_true rfl rfl⟩
    rintro ⟨m, rfl, -⟩
    cases hr
  · rw [h]
    refine ⟨⟨nofun, ?_⟩, nofun, fun _ => rfl, iff_of_false nofun nofun⟩
    rintro ⟨m', hm, hp, ha⟩
    cases hm
    exact (hz.elim hp ha).elim
  · rw [h]
    exact ⟨iff_of_true rfl ⟨m, rfl, hp, ha⟩, fun _ => ⟨m, rfl, rfl⟩,
      fun h => (h rfl).elim, iff_of_false nofun nofun⟩

example : getInstance (.arrayMetadata ⟨1, 16, 1024⟩) none =
    (kRetOk, some ⟨⟨1, 16, 1024⟩, false⟩) := rfl
example : (getInstance (.arrayMetadata ⟨1, 0, 1024⟩) none).1 =
    ⟨.kErrorCodeStrArrayInvalidOption⟩ := rfl

end Foedus.Storage.Array
