import Mathlib.Data.Finset.Card
import Xv6.Fs.Room

/-!
# What a write logs

`writei` logs the blocks of the file it writes, the bitmap blocks of the blocks it takes, the
indirect block if it enters one of these there, and the inode's block if the file grows. They are
all different: the blocks of files have one owner each, and the others come before them on the disk.
-/

namespace Xv6.Fs

open Bytes Partial List

variable {P : Type} {sb : Superblock} {s s' : State P} {i : Fin NINODE} {bns : List Nat}

/-- The number of bitmap blocks. -/
def Superblock.nbitmap (sb : Superblock) : Nat := (sb.size + 4095) / 4096

/-- The most distinct blocks that a section logs which touches `t` blocks of the file. -/
def Superblock.cost (sb : Superblock) (t : Nat) : Nat := t + min (t + 1) sb.nbitmap + 2

/-- Inodes come before the bitmap, which is one block, and this before the blocks of files. -/
structure Superblock.Ordered (sb : Superblock) : Prop where
  inodes : ∀ n < sb.ninodes, sb.iblock n < sb.bmapstart
  bits : sb.bmapstart < sb.nmeta
  one : sb.size ≤ 4096

section Count

variable (h : Saved sb i bns s s') (hown : s'.Own sb i) (hlog : s.logged = [])

include h hown hlog

theorem Saved.card_le : s'.logged.toFinset.card + 1 ≤ sb.cost bns.length := by
  let n := (s.inode i).inum
  let slots := insert (n, .addr indirect) (bns.map fun bn => (n, Slot.block bn)).toFinset
  let data := (bns.map fun bn => s'.addr i (n, .block bn)).toFinset
  let taken := slots.image fun x => sb.bblock (s'.addr i x)
  let bits := (Finset.range sb.nbitmap).image (· + sb.bmapstart)
  have hsub : s'.logged.toFinset ⊆ data ∪ insert (s'.addr i (n, .addr indirect)) (taken ∩ bits) := by
    intro c hc
    rw [mem_toFinset, h.mem, hlog] at hc
    obtain hc | ⟨bn, hbn, rfl | ⟨-, -, rfl⟩⟩ | ⟨x, h0, hne, rfl⟩ := hc
    · cases hc
    · exact Finset.mem_union_left _ (mem_toFinset.mpr (mem_map_of_mem hbn))
    · exact Finset.mem_union_right _ (Finset.mem_insert_self _ _)
    · refine Finset.mem_union_right _ (Finset.mem_insert_of_mem (Finset.mem_inter.mpr ⟨?_, ?_⟩))
      · refine Finset.mem_image_of_mem _ ?_
        obtain ⟨bn, hbn, rfl | ⟨-, rfl⟩⟩ := not_not.mp fun hx => hne ((h.others x hx).trans h0)
        · exact Finset.mem_insert_of_mem (mem_toFinset.mpr (mem_map_of_mem hbn))
        · exact Finset.mem_insert_self _ _
      · have hlt := (hown.range x hne).2
        refine Finset.mem_image.mpr ⟨s'.addr i x / 4096, Finset.mem_range.mpr ?_, rfl⟩
        unfold Superblock.nbitmap
        omega
  have hdata : data.card ≤ bns.length := (toFinset_card_le _).trans (length_map _).le
  have htaken : (taken ∩ bits).card ≤ bns.length + 1 :=
    (Finset.card_le_card Finset.inter_subset_left).trans <| Finset.card_image_le.trans <|
      (Finset.card_insert_le _ _).trans <|
        Nat.succ_le_succ ((toFinset_card_le _).trans (length_map _).le)
  have hbits : (taken ∩ bits).card ≤ sb.nbitmap :=
    (Finset.card_le_card Finset.inter_subset_right).trans <| Finset.card_image_le.trans
      (Finset.card_range _).le
  have hunion := (Finset.card_le_card hsub).trans (Finset.card_union_le _ _)
  have hinsert := Finset.card_insert_le (s'.addr i (n, .addr indirect)) (taken ∩ bits)
  unfold Superblock.cost
  omega

end Count

/-! ## Writing to a file -/

section Writei

variable {off : Nat} {src : List Byte} (hown : s.Own sb i) (htype : (s.inode i).din.type ≠ .free)

include hown htype

theorem writeiLoop_written_saved {u : Unit}
    (hrun : (writeiLoop sb i src.length off src).run s = some (u, s')) :
    Written sb i off src s s' ∧ Saved sb i (blocks off src.length) s s' := by
  have hw := writeiLoop_written hown htype le_rfl hrun
  refine ⟨hw, ?_⟩
  by_cases hsrc : src = []
  · subst hsrc
    rw [writeiLoop_nil hrun]
    exact .nil
  · have hpos : 0 < src.length := length_pos_iff.mpr hsrc
    have hlast := (hw.filled (off + src.length - 1) (by omega) (by omega)).1
    exact writeiLoop_saved hown htype (by omega) le_rfl hrun

theorem writei_card_logged {r : Option Nat} (h : (writei sb i off src).run s = some (r, s'))
    (hlog : s.logged = []) : s'.logged.toFinset.card ≤ sb.cost (touched off src.length) := by
  obtain ⟨rfl, -⟩ | ⟨-, -, -, t, ht, hs'⟩ := writei_inv h
  · simp [hlog]
  · obtain ⟨hw, hsaved⟩ := writeiLoop_written_saved hown htype ht
    have hcard := hsaved.card_le hw.own hlog
    rw [blocks, length_range'] at hcard
    rw [hs']
    split
    · -- the size has grown: the inode's block is logged too
      refine le_trans ?_ hcard
      simp only [State.flush, toFinset_cons]
      exact Finset.card_insert_le _ _
    · omega

end Writei

/-- A file that has just been created. -/
def opened : Option (State (Fin 1)) :=
  State.run .mkfs 0 (State.mkfs.boot 0) [.open 0 [120] (O_CREATE ||| O_RDWR)]

end Xv6.Fs
