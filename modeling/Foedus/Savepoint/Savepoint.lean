import Foedus.Storage.Page

/-! # Savepoints

`Savepoint::populate_empty` of `foedus/savepoint/savepoint.cpp`, which fills in the
savepoint of a database that has no log yet: the first epochs, and for each logger the
log file it starts with and the offsets in it. The per-logger fields are `std::vector`s,
which `populate_empty` grows with `resize(logger_count, 0)`. `resize` only fills the
entries it adds, so entries a vector already had keep their values: the savepoint is
empty afterwards only if its vectors were empty before, as the constructor leaves them.

The field types are declared in `savepoint.hpp`, outside this file: the epochs are the
32-bit `Epoch` values of the page header, log file ordinals are 32-bit and offsets 64-bit.
`load` and `save` go through the XML externalization macros, also declared elsewhere.
-/

namespace Foedus

open Storage (Epoch)

namespace Savepoint

end Savepoint

end Foedus
