import Ext2fs.Lib.BinarySearch
import Ext2fs.Balloc

/-!
# Extents: reading the tree

The nodes of an extent tree are blocks of 32-bit words, and the root is the fifteen words of `i_db` and
`i_ib`.  A node is an array of slots of three words: slot 0 is the header, slot `i` the `i`-th entry,
an extent in a leaf and an index entry above.  The C reads a slot through whatever pointer it has, so
the accessors below are defined for every slot.

* `ext4ExtFindExtent` — the entry found for a logical block;
* `ext4Bmapext`, `ext2Blkatoff` — its two readers.
-/

namespace Ext2fs

open BinarySearch

/-- `EXT4_EXT_MAGIC` -/
def EXT4_EXT_MAGIC : ℕ := 0xf30a

/-- The words of a node. -/
abbrev ExtNode := ℕ → ℕ

namespace ExtNode

variable (n : ExtNode) (i : ℕ)

/-- `eh_magic` -/
def magic : ℕ := n 0 % 2 ^ 16

/-- `eh_ecount`: number of valid entries -/
def ecount : ℕ := n 0 / 2 ^ 16

/-- `eh_max`: capacity of store in entries -/
def max : ℕ := n 1 % 2 ^ 16

/-- `eh_depth`: the depth of extent tree -/
def depth : ℕ := n 1 / 2 ^ 16

/-- `e_blk`, and `ei_blk`: first logical block -/
def blk : ℕ := n (3 * i)

/-- `e_len`: number of blocks -/
def len : ℕ := n (3 * i + 1) % 2 ^ 16

/-- `e_start_hi`: high 16 bits of physical block -/
def startHi : ℕ := n (3 * i + 1) / 2 ^ 16

/-- `e_start_lo`: low 32 bits of physical block -/
def startLo : ℕ := n (3 * i + 2)

/-- `e_start_lo | (daddr64_t)e_start_hi << 32`, which have no bit in common -/
def start : ℕ := n.startLo i + n.startHi i * 2 ^ 32

/-- `(daddr64_t)ei_leaf_hi << 32 | ei_leaf_lo` -/
def leaf : ℕ := n (3 * i + 1) + n (3 * i + 2) % 2 ^ 16 * 2 ^ 32

/-- `ext4_ext_binsearch_index` and `ext4_ext_binsearch`: the last slot whose first block is not behind
`lbn`.  It is slot 0, the header, when there is none. -/
def binsearch (lbn : ℕ) : ℕ := search (fun m => lbn < n.blk m) 1 n.ecount

end ExtNode

/-- A node by its block number, `none` for the root in the inode. -/
abbrev NodeRef := Option ℕ

namespace World

/-- The words of a node as the buffer layer shows them. -/
def node (fs : MExt2fs) (w : World) : NodeRef → ExtNode
  | none => w.ip.slot
  | some nblk => w.dev (fs.fsbtodb nblk)

end World

/-- `struct ext4_extent_path`: the node of `ep_header` and the slot of `ep_ext`, if it is not null. -/
structure ExtPath where
  header : NodeRef
  ext : Option ℕ
  deriving DecidableEq

/-- The loop of `ext4_ext_find_extent` over `i` levels of index nodes; `read` tells which device
addresses can be read. -/
def findLoop (fs : MExt2fs) (read : ℤ → Bool) (w : World) (lbn : ℕ) : ℕ → NodeRef → Option NodeRef
  | 0, ref => some ref
  | i + 1, ref =>
      let nblk := (w.node fs ref).leaf ((w.node fs ref).binsearch lbn)
      if read (fs.fsbtodb nblk) then findLoop fs read w lbn i (some nblk) else none

/-- `ext4_ext_find_extent`.  With the result `NULL` goes a null `ep_ext`. -/
def ext4ExtFindExtent (fs : MExt2fs) (read : ℤ → Bool) (w : World) (lbn : ℕ) : Option ExtPath :=
  let root := w.node fs none
  if root.magic ≠ EXT4_EXT_MAGIC then none
  else match findLoop fs read w lbn root.depth none with
    | none => none
    | some header =>
        let leaf := w.node fs header
        some ⟨header, if leaf.ecount = 0 then none else some (leaf.binsearch lbn)⟩

/-- `lbn - ep->e_blk + (ep->e_start_lo | (daddr64_t)ep->e_start_hi << 32)` -/
def extBlock (n : ExtNode) (ep lbn : ℕ) : ℤ := (lbn : ℤ) - n.blk ep + n.start ep

/-- `ext4_bmapext`: the device block of a logical block. -/
def ext4Bmapext (fs : MExt2fs) (read : ℤ → Bool) (w : World) (lbn : ℕ) : Except Errno ℤ :=
  match ext4ExtFindExtent fs read w lbn with
  | some ⟨header, some ep⟩ =>
      let bn := fs.fsbtodb (extBlock (w.node fs header) ep lbn)
      .ok (if bn = 0 then -1 else bn)
  | _ => .error .eio

end Ext2fs
