/-
# `Jccl.Lib.Block` — a block of bytes that can be resized

What a pointer to the start of a block is worth: nothing, if it is NULL; the
cells of the block, each of which holds a byte or was never written; or
nothing any more, once the block was freed.

`realloc` is that of glibc.  A request for more than `PTRDIFF_MAX` bytes is
refused, any other one for a positive size is as the allocator answers; for
no bytes, NULL gets a block of no cells, and a block is freed.
-/
import Jccl.Lib.Alloc

namespace Jccl

def PTRDIFF_MAX : Nat := 2 ^ 63 - 1

/-- An object in memory, which no platform lets be larger. -/
structure Bytes where
  bytes : List UInt8
  fits : bytes.length ≤ PTRDIFF_MAX

inductive Block where
  | null
  | live (cells : List (Option UInt8))
  | freed
deriving DecidableEq

namespace Block

/-- The cells after a block was made larger or smaller. -/
def resize (cells : List (Option UInt8)) (size : Nat) : List (Option UInt8) :=
  cells.take size ++ List.replicate (size - cells.length) none

/-- Whether a request for some bytes succeeds. -/
def accepts (answers : List Bool) (size : Nat) : Bool :=
  granted answers && decide (size ≤ PTRDIFF_MAX)

/-- `realloc(p, size)`: what it returns, and what `p` is worth afterwards. -/
def realloc (p : Block) (size : Nat) : AllocM (Block × Block) := fun answers =>
  match p with
  | .freed => .error .dangling
  | .null =>
      if size = 0 then .ok ((.live [], .null), answers)
      else if accepts answers size then .ok ((.live (resize [] size), .null), answers.tail)
      else .ok ((.null, .null), answers.tail)
  | .live cells =>
      if size = 0 then .ok ((.null, .freed), answers)
      else if accepts answers size then .ok ((.live (resize cells size), .freed), answers.tail)
      else .ok ((.null, .live cells), answers.tail)

/-- `free(p)`, and what `p` is worth afterwards. -/
def free : Block → Outcome Block
  | .null => .ok .null
  | .live _ => .ok .freed
  | .freed => .error .dangling

/-- `memmove(p + offset, s, …)`. -/
def write (p : Block) (offset : Nat) (s : List UInt8) : Outcome Block :=
  match p with
  | .null => .error .null
  | .freed => .error .dangling
  | .live cells =>
      if offset + s.length ≤ cells.length then
        .ok (.live (cells.take offset ++ s.map some ++ cells.drop (offset + s.length)))
      else
        .error .bounds

/-- `memmove(…, p + offset, n)`. -/
def read (p : Block) (offset n : Nat) : Outcome (List (Option UInt8)) :=
  match p with
  | .null => .error .null
  | .freed => .error .dangling
  | .live cells =>
      if offset + n ≤ cells.length then .ok ((cells.drop offset).take n) else .error .bounds

/-! ## Blocks that begin with some bytes -/

/-- The first cells hold the bytes, and there are `n` cells. -/
structure Begins (cells : List (Option UInt8)) (n : Nat) (xs : List UInt8) : Prop where
  rest : ∃ free, cells = xs.map some ++ free
  length : cells.length = n

variable {cells : List (Option UInt8)} {n : Nat} {xs s : List UInt8}

theorem Begins.le (h : Begins cells n xs) : xs.length ≤ n := by
  obtain ⟨⟨free, rfl⟩, hlen⟩ := h
  rw [← hlen, List.length_append, List.length_map]
  exact Nat.le_add_right _ _

theorem begins_resize (h : Begins cells n xs) {size : Nat} (hsize : n ≤ size) :
    Begins (resize cells size) size xs := by
  obtain ⟨⟨free, rfl⟩, hlen⟩ := h
  have htake := List.take_of_length_le (hlen.trans_le hsize)
  refine ⟨⟨free ++ List.replicate (size - (xs.map some ++ free).length) none, ?_⟩, ?_⟩
  · rw [resize, htake, List.append_assoc]
  · rw [resize, htake, List.length_append, List.length_replicate, hlen, Nat.add_sub_cancel' hsize]

theorem begins_nil (h : cells.length = n) : Begins cells n [] := ⟨⟨cells, rfl⟩, h⟩

/-- More bytes are put behind the first ones. -/
theorem write_ok (h : Begins cells n xs) (hfits : xs.length + s.length ≤ n) :
    ∃ cells', write (.live cells) xs.length s = .ok (.live cells') ∧ Begins cells' n (xs ++ s) := by
  obtain ⟨⟨free, rfl⟩, hlen⟩ := h
  have htake : (xs.map some ++ free).take xs.length = xs.map some :=
    List.take_left' (List.length_map _)
  refine ⟨_, if_pos (by rwa [hlen]), ⟨_, by rw [htake, List.map_append]⟩, ?_⟩
  rw [htake, List.length_append, List.length_append, List.length_drop, List.length_map,
    List.length_map, hlen, Nat.add_sub_cancel' hfits]

/-- Any of the bytes are read. -/
theorem Begins.read (h : Begins cells n xs) {offset k : Nat} (hle : offset + k ≤ xs.length) :
    Block.read (.live cells) offset k = .ok (((xs.drop offset).take k).map some) := by
  have hn := h.le
  obtain ⟨⟨free, rfl⟩, hlen⟩ := h
  rw [Block.read, if_pos (by omega), List.drop_append_of_le_length (by rw [List.length_map]; omega),
    List.take_append_of_le_length (by rw [List.length_drop, List.length_map]; omega),
    ← List.map_drop, ← List.map_take]

/-- The last bytes are read. -/
theorem read_ok (h : Begins cells n (xs ++ s)) :
    read (.live cells) xs.length s.length = .ok (s.map some) := by
  have hle := h.le
  obtain ⟨⟨free, rfl⟩, hlen⟩ := h
  rw [List.length_append] at hle
  rw [read, if_pos (by rwa [hlen]), List.map_append, List.append_assoc,
    List.drop_left' (List.length_map _), List.take_left' (List.length_map _)]

theorem Begins.prefix (h : Begins cells n (xs ++ s)) : Begins cells n xs := by
  obtain ⟨⟨free, rfl⟩, hlen⟩ := h
  exact ⟨⟨s.map some ++ free, by rw [List.map_append, List.append_assoc]⟩, hlen⟩

end Block

end Jccl
