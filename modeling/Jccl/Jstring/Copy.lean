/-
# `Jccl.Jstring.Copy` — `strncpy_with_modifier` within one memory

The characters are copied one by one from the left, so what matters is whether
a byte of the source is read before it is written over.  It is, if the
destination does not begin inside the source; the two may be the same, which
modifies a string in place.

If it does begin inside, `d` bytes behind the source, the terminator is
written over before the loop comes to it.  What is read from there on is what
was written `d` bytes before, with the modifier applied once more, and nothing
but `count` ends the loop.
-/
import Jccl.Jstring.Defs

namespace Jccl

/-- The memory with `bytes` written to it from `p` on. -/
def overwrite (mem : List UInt8) (p : Nat) (bytes : List UInt8) : List UInt8 :=
  mem.take p ++ bytes ++ mem.drop (p + bytes.length)

section Overwrite

variable {mem bytes : List UInt8} {p : Nat}

theorem overwrite_nil : overwrite mem p [] = mem := by
  rw [overwrite, List.append_nil]
  exact List.take_append_drop p mem

theorem length_overwrite (h : p + bytes.length ≤ mem.length) :
    (overwrite mem p bytes).length = mem.length := by
  rw [overwrite, List.length_append, List.length_append, List.length_take, List.length_drop]
  omega

theorem getElem?_overwrite (h : p + bytes.length ≤ mem.length) (i : Nat) :
    (overwrite mem p bytes)[i]?
      = if p ≤ i ∧ i < p + bytes.length then bytes[i - p]? else mem[i]? := by
  have htake : (mem.take p).length = p := List.length_take_of_le (by omega)
  rw [overwrite, List.append_assoc]
  rcases Nat.lt_or_ge i p with hlt | hge
  · rw [List.getElem?_append_left (htake.symm ▸ hlt), List.getElem?_take_of_lt hlt,
      if_neg (by omega)]
  · rw [List.getElem?_append_right (htake.symm ▸ hge), htake]
    rcases Nat.lt_or_ge (i - p) bytes.length with hin | hout
    · rw [List.getElem?_append_left hin, if_pos (by omega)]
    · rw [List.getElem?_append_right hout, List.getElem?_drop, if_neg (by omega)]
      congr 1
      omega

/-- One more byte. -/
theorem writeAt_overwrite (mem bytes : List UInt8) (p : Nat) (h : p + bytes.length < mem.length)
    (x : UInt8) :
    writeAt (overwrite mem p bytes) (p + bytes.length) x
      = .ok (overwrite mem p (bytes ++ [x])) := by
  have hlen : (overwrite mem p bytes).length = mem.length := length_overwrite h.le
  rw [writeAt_of_lt (by omega)]
  refine congrArg Except.ok (List.ext_getElem? fun i => ?_)
  have hmore : p + (bytes ++ [x]).length ≤ mem.length := by
    rw [List.length_append, List.length_singleton]
    omega
  rw [List.getElem?_set, getElem?_overwrite hmore, getElem?_overwrite h.le, hlen,
    List.length_append, List.length_singleton]
  rcases Nat.lt_trichotomy i (p + bytes.length) with hlt | rfl | hgt
  · rw [if_neg (by omega)]
    by_cases hin : p ≤ i
    · rw [if_pos ⟨hin, hlt⟩, if_pos (by omega), List.getElem?_append_left (by omega)]
    · rw [if_neg (by omega), if_neg (by omega)]
  · rw [if_pos rfl, if_pos h, if_pos (by omega), Nat.add_sub_cancel_left]
    simp
  · rw [if_neg (by omega), if_neg (by omega), if_neg (by omega)]

end Overwrite

/-! ## Characters that the loop reads -/

section Loop

variable {modifier : CharacterModifier} {mem : List UInt8} {dest src : Nat}

/-- What is written, if `read k` is what the loop reads in its iteration `k`. -/
def written (modifier : CharacterModifier) (read : Nat → UInt8) (n : Nat) : List UInt8 :=
  (List.range n).map fun k => modifyChar modifier (read k)

theorem length_written (modifier : CharacterModifier) (read : Nat → UInt8) (n : Nat) :
    (written modifier read n).length = n := by
  rw [written, List.length_map, List.length_range]

theorem written_succ (read : Nat → UInt8) (n : Nat) :
    written modifier read (n + 1) = written modifier read n ++ [modifyChar modifier (read n)] := by
  rw [written, List.range_succ, List.map_append]
  rfl

/-- The loop reads these characters in its first `n` iterations. -/
def Reads (modifier : CharacterModifier) (mem : List UInt8) (dest src : Nat) (read : Nat → UInt8)
    (n : Nat) : Prop :=
  ∀ k < n, (overwrite mem dest (written modifier read k))[src + k]? = some (read k) ∧ read k ≠ 0

/-- The loop goes on for as long as it reads characters that are not NUL. -/
theorem strncpyLoop_reads {read : Nat → UInt8} {n : Nat}
    (h : Reads modifier mem dest src read n) (hroom : dest + n ≤ mem.length) (count : Nat) {k : Nat}
    (hk : k ≤ n) :
    strncpyLoop modifier (n - k + count) (dest + k) (src + k)
        (overwrite mem dest (written modifier read k))
      = strncpyLoop modifier count (dest + n) (src + n)
        (overwrite mem dest (written modifier read n)) := by
  induction hk using Nat.decreasingInduction with
  | self => rw [Nat.sub_self, Nat.zero_add]
  | of_succ k hlt ih =>
      obtain ⟨hread, hnul⟩ := h k hlt
      have hstep : n - k + count = n - (k + 1) + count + 1 := by omega
      have hlen := length_written modifier read k
      have hwrite := writeAt_overwrite mem (written modifier read k) dest (by omega)
        (modifyChar modifier (read k))
      rw [hlen, ← written_succ] at hwrite
      have hget : readAt (overwrite mem dest (written modifier read k)) (src + k)
          = .ok (read k) := by
        unfold readAt
        rw [hread]
      rw [hstep, strncpyLoop, hget, Outcome.ok_bind, if_pos hnul, hwrite, Outcome.ok_bind]
      exact ih

/-- The end of the loop: at the terminator, or when `count` is used up. -/
theorem strncpyLoop_ends {read : Nat → UInt8} {n : Nat}
    (h : Reads modifier mem dest src read n) {count : Nat} (hcount : n ≤ count)
    (hroom : dest + min count (n + 1) ≤ mem.length)
    (hend : n < count → (overwrite mem dest (written modifier read n))[src + n]? = some 0) :
    strncpyLoop modifier count dest src mem
      = .ok (overwrite mem dest
          (written modifier read n ++ if n < count then [0] else [])) := by
  have hrun := strncpyLoop_reads h (by omega) (count - n) (Nat.zero_le n)
  have hall : n - 0 + (count - n) = count := by omega
  have hnone : overwrite mem dest (written modifier read 0) = mem := overwrite_nil
  rw [hall, hnone, Nat.add_zero, Nat.add_zero] at hrun
  rw [hrun]
  by_cases hlt : n < count
  · obtain ⟨more, hmore⟩ := Nat.exists_eq_add_of_lt hlt
    have hleft : count - n = more + 1 := by omega
    have hget : readAt (overwrite mem dest (written modifier read n)) (src + n) = .ok 0 := by
      unfold readAt
      rw [hend hlt]
    have hwrite := writeAt_overwrite mem (written modifier read n) dest
      (by rw [length_written]; omega) 0
    rw [length_written] at hwrite
    rw [hleft, strncpyLoop, hget, Outcome.ok_bind, if_neg (by decide), hwrite, if_pos hlt]
  · have hleft : count - n = 0 := by omega
    rw [hleft, strncpyLoop, if_neg hlt, List.append_nil]

end Loop

/-! ## The source outside of the destination -/

/-- The characters that are copied, and what ends them. -/
structure Source (mem : List UInt8) (src count : Nat) (s : List UInt8) : Prop where
  nonul : 0 ∉ s
  chars : ∀ k < s.length, mem[src + k]? = s[k]?
  ends : s.length = count ∨ s.length < count ∧ mem[src + s.length]? = some 0

section Copy

variable {modifier : CharacterModifier} {mem s : List UInt8} {dest src count : Nat}

theorem written_getD (s : List UInt8) :
    written modifier (fun k => s.getD k 0) s.length = s.map (modifyChar modifier) := by
  refine List.ext_getElem (by rw [length_written, List.length_map]) fun k hk hk' => ?_
  rw [List.length_map] at hk'
  simp [written, List.getD_eq_getElem?_getD, hk']

theorem getD_ne_zero (h : 0 ∉ s) {k : Nat} (hk : k < s.length) : s.getD k 0 ≠ 0 := by
  rw [List.getD_eq_getElem _ _ hk]
  exact fun hzero => h (hzero ▸ List.getElem_mem hk)

/-- No byte of the source is written over before it is read. -/
theorem Source.reads (h : Source mem src count s) (modifier : CharacterModifier)
    (hroom : dest + min count (s.length + 1) ≤ mem.length)
    (hplace : dest ≤ src ∨ src + min count (s.length + 1) ≤ dest) :
    Reads modifier mem dest src (fun k => s.getD k 0) s.length := by
  intro k hk
  have hle : s.length ≤ count := by
    rcases h.ends with heq | ⟨hlt, -⟩
    · exact heq.le
    · exact hlt.le
  have hlen := length_written modifier (fun k => s.getD k 0) k
  refine ⟨?_, getD_ne_zero h.nonul hk⟩
  rw [getElem?_overwrite (by omega), if_neg (by omega), h.chars k hk]
  show s[k]? = some (s.getD k 0)
  rw [List.getD_eq_getElem _ _ hk, List.getElem?_eq_getElem hk]

end Copy

/-- **`strncpy_with_modifier` copies**: where the destination does not begin
inside the source, it gets the modified characters, and the terminator if
`count` leaves room for it; nothing else in memory changes. -/
theorem strncpyWithModifier_copies (modifier : CharacterModifier) (mem s : List UInt8)
    (dest src count : Nat) (hsource : Source mem src count s)
    (hroom : dest + min count (s.length + 1) ≤ mem.length)
    (hplace : dest ≤ src ∨ src + min count (s.length + 1) ≤ dest) :
    strncpyWithModifier mem (some dest) (some src) count modifier
      = .ok (overwrite mem dest
          (s.map (modifyChar modifier) ++ if s.length < count then [0] else []), some dest) := by
  have hle : s.length ≤ count := by
    rcases hsource.ends with heq | ⟨hlt, -⟩
    · exact heq.le
    · exact hlt.le
  have hends : s.length < count → (overwrite mem dest
      (written modifier (fun k => s.getD k 0) s.length))[src + s.length]? = some 0 := by
    intro hlt
    rw [getElem?_overwrite (by rw [length_written]; omega), length_written, if_neg (by omega)]
    rcases hsource.ends with heq | ⟨-, hnul⟩
    · exact absurd heq hlt.ne
    · exact hnul
  have hrun := strncpyLoop_ends (hsource.reads modifier hroom hplace) hle hroom hends
  rw [written_getD] at hrun
  rw [strncpyWithModifier, hrun]
  rfl

/-- `toupper` for the lower case letters. -/
def upper : CharacterModifier := fun c => if 97 ≤ c ∧ c ≤ 122 then c - 32 else c

/-- `"ab"` in place, and the byte behind it. -/
theorem strncpyWithModifier_copies_inPlace :
    overwrite [97, 98, 0, 7] 0 [65, 66, 0] = [65, 66, 0, 7] ∧
    strncpyWithModifier [97, 98, 0, 7] (some 0) (some 0) 4 upper
      = .ok (overwrite [97, 98, 0, 7] 0
          ([97, 98].map (modifyChar upper) ++ if 2 < 4 then [0] else []), some 0) :=
  ⟨by decide, strncpyWithModifier_copies upper [97, 98, 0, 7] [97, 98] 0 0 4
    ⟨by decide, by decide, by decide⟩ (by decide) (by decide)⟩

/-! ## The destination inside of the source -/

/-- What is read in iteration `k`, the destination being behind the
characters `s`. -/
def smeared (modifier : CharacterModifier) (s : List UInt8) (k : Nat) : UInt8 :=
  (modifyChar modifier)^[k / s.length] (s.getD (k % s.length) 0)

section Smear

variable {modifier : CharacterModifier} {mem s : List UInt8} {src : Nat}

theorem smeared_of_lt {k : Nat} (hk : k < s.length) : smeared modifier s k = s.getD k 0 := by
  rw [smeared, Nat.div_eq_of_lt hk, Nat.mod_eq_of_lt hk]
  rfl

theorem smeared_add (hs : 0 < s.length) (k : Nat) :
    smeared modifier s (k + s.length) = modifyChar modifier (smeared modifier s k) := by
  rw [smeared, Nat.add_div_right _ hs, Nat.add_mod_right, Function.iterate_succ_apply']
  rfl

theorem smeared_ne_zero (hmodifier : ∀ c, c ≠ 0 → modifyChar modifier c ≠ 0) (hs : 0 < s.length)
    (hnul : 0 ∉ s) (k : Nat) : smeared modifier s k ≠ 0 := by
  have hstart := getD_ne_zero hnul (Nat.mod_lt k hs)
  rw [smeared]
  generalize k / s.length = n
  induction n with
  | zero => exact hstart
  | succ n ih =>
      rw [Function.iterate_succ_apply']
      exact hmodifier _ ih

/-- What is read in place of the source is what was written before. -/
theorem reads_smeared (hmodifier : ∀ c, c ≠ 0 → modifyChar modifier c ≠ 0) (hs : 0 < s.length)
    (hnul : 0 ∉ s) (hchars : ∀ k < s.length, mem[src + k]? = s[k]?) {n : Nat}
    (hroom : src + s.length + n ≤ mem.length) :
    Reads modifier mem (src + s.length) src (smeared modifier s) n := by
  intro k hk
  refine ⟨?_, smeared_ne_zero hmodifier hs hnul k⟩
  have hlen := length_written modifier (smeared modifier s) k
  rw [getElem?_overwrite (by omega), hlen]
  rcases Nat.lt_or_ge k s.length with hlt | hge
  · rw [if_neg (by omega), hchars k hlt, smeared_of_lt hlt, List.getD_eq_getElem _ _ hlt,
      List.getElem?_eq_getElem hlt]
  · obtain ⟨j, rfl⟩ := Nat.exists_eq_add_of_le' hge
    have hindex : src + (j + s.length) - (src + s.length) = j := by omega
    have hj : j < j + s.length := by omega
    rw [if_pos (by omega), hindex, smeared_add hs, written, List.getElem?_map,
      List.getElem?_range hj]
    rfl

end Smear

/-- **A copy into its own source**: the characters in front of the destination
are repeated up to the last of the `count` bytes, modified once more in each
repetition.  The terminator of the source is lost, and none is written. -/
theorem strncpyWithModifier_smears (modifier : CharacterModifier) (mem s : List UInt8)
    (src count : Nat) (hs : 0 < s.length) (hnul : 0 ∉ s)
    (hchars : ∀ k < s.length, mem[src + k]? = s[k]?)
    (hmodifier : ∀ c, c ≠ 0 → modifyChar modifier c ≠ 0)
    (hroom : src + s.length + count ≤ mem.length) :
    strncpyWithModifier mem (some (src + s.length)) (some src) count modifier
      = .ok (overwrite mem (src + s.length) ((List.range count).map fun k =>
          (modifyChar modifier)^[k / s.length + 1] (s.getD (k % s.length) 0)),
        some (src + s.length)) := by
  have hrun := strncpyLoop_ends (reads_smeared hmodifier hs hnul hchars hroom) (le_refl count)
    (by omega) fun hlt => absurd hlt (lt_irrefl count)
  have hwritten : written modifier (smeared modifier s) count = (List.range count).map fun k =>
      (modifyChar modifier)^[k / s.length + 1] (s.getD (k % s.length) 0) := by
    refine List.map_congr_left fun k _ => ?_
    rw [Function.iterate_succ_apply']
    rfl
  rw [if_neg (lt_irrefl count), List.append_nil, hwritten] at hrun
  rw [strncpyWithModifier, hrun]
  rfl

/-- The promotion and the conversion cancel. -/
theorem modifyChar_id (c : UInt8) : modifyChar id c = c := by
  have hval : c.toInt8.toInt = (c.toNat : Int).bmod 256 := BitVec.toInt_eq_toNat_bmod c.toBitVec
  have hlt : c.toNat < 256 := c.toNat_lt
  have hmod : (c.toNat : Int).bmod 256 % 256 = c.toNat % 256 := Int.bmod_emod
  show UInt8.ofNat (c.toInt8.toInt % 256).toNat = c
  rw [hval, hmod, ← UInt8.toNat_inj, UInt8.toNat_ofNat']
  omega

/-- `"ab"` two bytes behind itself, over its terminator. -/
theorem strncpyWithModifier_smears_ab :
    overwrite [97, 98, 0, 7, 7, 7, 7] 2 [97, 98, 97, 98] = [97, 98, 97, 98, 97, 98, 7] ∧
    strncpyWithModifier [97, 98, 0, 7, 7, 7, 7] (some (0 + 2)) (some 0) 4 id
      = .ok (overwrite [97, 98, 0, 7, 7, 7, 7] (0 + 2) ((List.range 4).map fun k =>
          (modifyChar id)^[k / 2 + 1] ([97, 98].getD (k % 2) 0)), some (0 + 2)) :=
  ⟨by decide, strncpyWithModifier_smears id [97, 98, 0, 7, 7, 7, 7] [97, 98] 0 4 (by decide)
    (by decide) (by decide) (fun c hc => by rwa [modifyChar_id]) (by decide)⟩

end Jccl
