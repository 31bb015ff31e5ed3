import Maverick.ByteFileProofs
import Maverick.FieldProofs

/-! # Directories — entries in a file

A directory is a file of 20-byte entries: the sector of an inode, a name of at most 14 characters
with its terminating zero, and whether the entry is in use. All functions of `directory.c` scan the
entries from some offset to the first one that they look for, or to the end of the file. They are
given here over any way to read 20 bytes at an offset; over a byte array they implement a finite map
from names to sectors. -/

namespace MavDir

open MavByteFile MavField List

/-! ## Entries -/

/-- The bytes of a C string, without the zero. -/
abbrev Name := { l : List UInt8 // (0 : UInt8) ∉ l }

def nameMax : Nat := 14

/-- `sizeof (struct dir_entry)`. -/
abbrev entrySize : Nat := 20

/-- `e.inode_sector`. -/
def inodeSector (e : List UInt8) : Nat := leNat (e.take 4)

/-- `e.name`, all 15 characters of it. -/
def nameField (e : List UInt8) : List UInt8 := (e.drop 4).take 15

/-- `e.name` as a string. -/
def entryName (e : List UInt8) : List UInt8 := (nameField e).takeWhile (· ≠ 0)

def inUse (e : List UInt8) : Bool := e.getD 19 0 ≠ 0

/-- `e.in_use = true; strlcpy (e.name, name, sizeof e.name); e.inode_sector = sector`: the name
    field keeps what stood behind the new name's zero. -/
def fillEntry (e : List UInt8) (name : Name) (sector : Nat) : List UInt8 :=
  leBytes 4 sector ++ (name.val ++ 0 :: (nameField e).drop (name.val.length + 1)) ++ [1]

/-- `e.in_use = false`. -/
def eraseEntry (e : List UInt8) : List UInt8 := e.take 19 ++ [0]

/-! ## The scan -/

/-- `for (ofs = …; inode_read_at (dir->inode, &e, sizeof e, ofs) == sizeof e; ofs += sizeof e)` up
    to the first entry with `p`: whether there is one, its offset, and what `e` holds afterwards. A
    short read overwrites the front of `e`. -/
def scan (rd : Nat → List UInt8) (p : List UInt8 → Bool) :
    Nat → Nat → List UInt8 → Bool × Nat × List UInt8
  | 0, ofs, e => (false, ofs, e)
  | fuel + 1, ofs, e =>
    let b := rd ofs
    if b.length = entrySize then
      if p b then (true, ofs, b) else scan rd p fuel (ofs + entrySize) b
    else (false, ofs, b ++ e.drop b.length)

/-- The entries `lookup` looks for. -/
def hasName (name : Name) (e : List UInt8) : Bool := inUse e && entryName e = name.val

/-- `lookup`: the offset and the entry. -/
def lookup (rd : Nat → List UInt8) (fuel : Nat) (name : Name) : Option (Nat × List UInt8) :=
  match scan rd (hasName name) fuel 0 [] with
  | (true, ofs, e) => some (ofs, e)
  | (false, _, _) => none

/-- What `dir_add` writes, and where; `e` is what its stack holds at first. -/
def addEntry (rd : Nat → List UInt8) (fuel : Nat) (name : Name) (sector : Nat) (e : List UInt8) :
    Option (Nat × List UInt8) :=
  if name.val = [] ∨ nameMax < name.val.length then none
  else
    match lookup rd fuel name with
    | some _ => none
    | none =>
      match scan rd (fun e => !inUse e) fuel 0 e with
      | (_, ofs, e) => some (ofs, fillEntry e name sector)

/-- `dir_readdir` from `pos`: the name and the next position. -/
def readdir (rd : Nat → List UInt8) (fuel pos : Nat) : Option (List UInt8 × Nat) :=
  match scan rd inUse fuel pos [] with
  | (true, ofs, e) => some (entryName e, ofs + entrySize)
  | (false, _, _) => none

/-- `dir_readdir` until it returns false. -/
def readdirAll (rd : Nat → List UInt8) (fuel : Nat) : Nat → Nat → List (List UInt8)
  | 0, _ => []
  | k + 1, pos =>
    match readdir rd fuel pos with
    | none => []
    | some (name, pos) => name :: readdirAll rd fuel k pos

/-! ## Entries read back -/

variable {e b f : List UInt8} {c i : Nat}

theorem length_nameField (he : e.length = entrySize) : (nameField e).length = 15 := by
  simp only [nameField, length_take, length_drop, he, entrySize]
  omega

/-- The parts of an entry stand where they are looked for. -/
theorem parts {a : List UInt8} {u : UInt8} (ha : a.length = 4) (hb : b.length = 15) :
    (a ++ b ++ [u]).take 4 = a ∧ ((a ++ b ++ [u]).drop 4).take 15 = b ∧
      (a ++ b ++ [u]).getD 19 0 = u := by
  refine ⟨?_, ?_, ?_⟩
  · rw [append_assoc, ← ha, take_left]
  · rw [append_assoc, ← ha, drop_left, ← hb, take_left]
  · simp [ha, hb]

theorem length_filledName (he : e.length = entrySize) {name : Name}
    (hn : name.val.length ≤ nameMax) :
    (name.val ++ 0 :: (nameField e).drop (name.val.length + 1)).length = 15 := by
  simp only [nameMax, length_append, length_cons, length_drop, length_nameField he] at hn ⊢
  omega

section Fill

variable (he : e.length = entrySize) {name : Name}
  (hn : name.val.length ≤ nameMax) (sector : Nat)

include he hn

theorem length_fillEntry : (fillEntry e name sector).length = entrySize := by
  rw [fillEntry, length_append, length_append, length_leBytes, length_filledName he hn]
  rfl

theorem inUse_fillEntry : inUse (fillEntry e name sector) = true := by
  have h := (parts (u := 1) (length_leBytes 4 sector) (length_filledName he hn)).2.2
  simp only [inUse, fillEntry, h]
  decide

theorem inodeSector_fillEntry : inodeSector (fillEntry e name sector) = sector % 2 ^ 32 := by
  have h := (parts (u := 1) (length_leBytes 4 sector) (length_filledName he hn)).1
  simp only [inodeSector, fillEntry]
  rw [h, leNat_leBytes, show (256 : Nat) ^ 4 = 2 ^ 32 by decide]

/-- The name reads back up to its zero. -/
theorem entryName_fillEntry : entryName (fillEntry e name sector) = name.val := by
  have h := (parts (u := 1) (length_leBytes 4 sector) (length_filledName he hn)).2.1
  simp only [entryName, nameField, fillEntry] at h ⊢
  rw [h, takeWhile_append_of_pos fun b hb => ?_, takeWhile_cons_of_neg (by simp), append_nil]
  exact decide_eq_true fun h0 => name.property (h0 ▸ hb)

end Fill

theorem length_eraseEntry (he : e.length = entrySize) : (eraseEntry e).length = entrySize := by
  simp only [eraseEntry, length_append, length_take, he, length_singleton, entrySize]
  omega

theorem inUse_eraseEntry (he : e.length = entrySize) : inUse (eraseEntry e) = false := by
  have hlen : (e.take 19).length = 19 := by rw [length_take, he]; rfl
  have h : (eraseEntry e).getD 19 0 = 0 := by
    rw [eraseEntry, getD_eq_getElem?_getD, List.getElem?_append_right hlen.le, hlen]
    rfl
  simp only [inUse, h]
  decide

theorem hasName_iff {name : Name} :
    hasName name e = true ↔ inUse e = true ∧ entryName e = name.val := by
  simp [hasName]

/-! ## The scan over a byte array -/

/-- The `i`-th entry of a directory. -/
def slot (f : List UInt8) (i : Nat) : List UInt8 := readAt f entrySize (entrySize * i)

theorem length_slot (hf : f.length = entrySize * c) (hi : i < c) :
    (slot f i).length = entrySize := by
  rw [slot, length_readAt, hf]
  have : entrySize * (i + 1) ≤ entrySize * c := Nat.mul_le_mul_left _ hi
  rw [Nat.mul_succ] at this
  exact Nat.min_eq_left (by omega)

/-- What a scan from the `k`-th of `c` entries finds: the first entry with `p`,
    or the end of the file and an entry's worth of bytes. -/
inductive Scanned (f : List UInt8) (p : List UInt8 → Bool) (c k : Nat) (e : List UInt8) :
    Bool × Nat × List UInt8 → Prop
  | found {i : Nat} (hk : k ≤ i) (hi : i < c) (hp : p (slot f i) = true)
      (hno : ∀ j, k ≤ j → j < i → p (slot f j) = false) :
      Scanned f p c k e (true, entrySize * i, slot f i)
  | missing {e' : List UInt8} (hno : ∀ j, k ≤ j → j < c → p (slot f j) = false)
      (he : e.length = entrySize ∨ k < c → e'.length = entrySize) :
      Scanned f p c k e (false, entrySize * c, e')

/-- **SCAN**: with fuel for all entries and the end of the file, the scan finds
    the first entry that it looks for. -/
theorem scan_spec (hf : f.length = entrySize * c)
    (p : List UInt8 → Bool) (fuel : Nat) {k : Nat} (hk : k ≤ c) (hfuel : c < fuel + k)
    (e : List UInt8) :
    Scanned f p c k e (scan (readAt f entrySize) p fuel (entrySize * k) e) := by
  induction fuel generalizing k e with
  | zero => omega
  | succ fuel ih =>
    show Scanned f p c k e (if (slot f k).length = entrySize then
      if p (slot f k) = true then (true, entrySize * k, slot f k)
      else scan (readAt f entrySize) p fuel (entrySize * k + entrySize) (slot f k)
      else (false, entrySize * k, slot f k ++ e.drop (slot f k).length))
    by_cases hend : k = c
    · -- nothing is read at the end of the file
      subst hend
      have hnil : slot f k = [] := by
        rw [slot, readAt, drop_eq_nil_of_le hf.le, take_nil]
      rw [hnil, if_neg (by decide)]
      exact .missing (fun j h1 h2 => absurd h2 (by omega)) fun h =>
        h.elim (fun h => h) fun h => absurd h (lt_irrefl k)
    have hlt : k < c := by omega
    rw [if_pos (length_slot hf hlt)]
    by_cases hp : p (slot f k) = true
    · rw [if_pos hp]
      exact .found le_rfl hlt hp fun j h1 h2 => absurd h2 (by omega)
    rw [if_neg hp, ← Nat.mul_succ]
    -- the entry at `k` is not the one, so the first one is further on
    have hno : ∀ b, (∀ j, k + 1 ≤ j → j < b → p (slot f j) = false) →
        ∀ j, k ≤ j → j < b → p (slot f j) = false := by
      intro b h j h1 h2
      rcases Nat.eq_or_lt_of_le h1 with rfl | h1
      · exact Bool.eq_false_iff.mpr hp
      · exact h j h1 h2
    have hrest := ih (k := k + 1) hlt (by omega) (slot f k)
    generalize scan (readAt f entrySize) p fuel (entrySize * (k + 1)) (slot f k) = r at hrest
    cases hrest with
    | found h1 h2 h3 h4 => exact .found (by omega) h2 h3 (hno _ h4)
    | missing h1 h2 => exact .missing (hno _ h1) fun _ => h2 (.inl (length_slot hf hlt))

/-! ## Writing one entry -/

/-- A write of one entry changes that slot, or adds it at the end. -/
theorem slot_writeAt (hf : f.length = entrySize * c) (hi : i ≤ c)
    (hb : b.length = entrySize) (j : Nat) (hj : j < max c (i + 1)) :
    slot (writeAt 0 f b (entrySize * i)) j = if j = i then b else slot f j := by
  have hlen := length_writeAt 0 f b (entrySize * i)
  have hjc : j = i ∨ j < c := by omega
  have hlast : entrySize * (j + 1) ≤ max f.length (entrySize * i + b.length) := by
    simp only [entrySize] at *
    omega
  rw [Nat.mul_succ] at hlast
  have hl1 : (slot (writeAt 0 f b (entrySize * i)) j).length = entrySize := by
    rw [slot, length_readAt, hlen]
    omega
  have hl2 : (if j = i then b else slot f j).length = entrySize := by
    split
    · rw [hb]
    · rename_i h
      rw [length_slot hf (hjc.resolve_left h)]
  refine ext_elemAt (z := 0) (hl1.trans hl2.symm) fun t ht => ?_
  rw [slot, elemAt_readAt ht, elemAt_writeAt]
  rw [hl1] at ht
  by_cases h : j = i
  · subst h
    rw [if_pos rfl, patch_inside (Nat.le_add_right _ _) (by omega), Nat.add_sub_cancel_left, elemAt]
  · rw [if_neg h, slot, elemAt_readAt (by rw [← slot, length_slot hf (hjc.resolve_left h)]; exact ht)]
    refine patch_outside ?_
    simp only [entrySize] at *
    omega

theorem length_write_slot (hf : f.length = entrySize * c) (hb : b.length = entrySize) :
    (writeAt 0 f b (entrySize * i)).length = entrySize * max c (i + 1) := by
  rw [length_writeAt, hf, hb]
  simp only [entrySize]
  omega

/-! ## Finite maps -/

/-- The entries of `f` are the bindings of `D`: names are not empty and fit
    their field, and no name is in two slots. -/
structure IsMap (c : Nat) (f : List UInt8) (D : Name → Option Nat) : Prop where
  length : f.length = entrySize * c
  valid : ∀ i < c, inUse (slot f i) →
    entryName (slot f i) ≠ [] ∧ (entryName (slot f i)).length ≤ nameMax
  unique : ∀ i < c, ∀ j < c, inUse (slot f i) → inUse (slot f j) →
    entryName (slot f i) = entryName (slot f j) → i = j
  bound : ∀ name k, D name = some k ↔
    ∃ i < c, hasName name (slot f i) ∧ inodeSector (slot f i) = k

section Map

variable {D : Name → Option Nat} {name : Name}

theorem IsMap.slot_unique (h : IsMap c f D) {j : Nat} (hi : i < c) (hj : j < c)
    (hni : hasName name (slot f i)) (hnj : hasName name (slot f j)) : i = j := by
  obtain ⟨hui, hei⟩ := hasName_iff.mp hni
  obtain ⟨huj, hej⟩ := hasName_iff.mp hnj
  exact h.unique i hi j hj hui huj (hei.trans hej.symm)

/-- Fuel for every entry and the end of the file. -/
def scanFuel (length : Nat) : Nat := length / entrySize + 1

theorem IsMap.fuel (h : IsMap c f D) : c < scanFuel f.length := by
  rw [scanFuel, h.length, Nat.mul_div_cancel_left _ (by decide)]
  exact Nat.lt_succ_self c

/-- **LOOKUP** finds the slot of a bound name. -/
theorem IsMap.lookup (h : IsMap c f D) (name : Name) :
    (D name = none ∧ MavDir.lookup (readAt f entrySize) (scanFuel f.length) name = none ∧
      ∀ i < c, ¬ hasName name (slot f i)) ∨
    ∃ i < c, hasName name (slot f i) ∧ D name = some (inodeSector (slot f i)) ∧
      MavDir.lookup (readAt f entrySize) (scanFuel f.length) name =
        some (entrySize * i, slot f i) := by
  have hs := scan_spec h.length (hasName name) (scanFuel f.length) (Nat.zero_le c) h.fuel []
  unfold MavDir.lookup
  generalize scan (readAt f entrySize) (hasName name) (scanFuel f.length) 0 [] = r at hs ⊢
  cases hs with
  | found _ hi hp _ =>
    exact .inr ⟨_, hi, hp, (h.bound name _).mpr ⟨_, hi, hp, rfl⟩, rfl⟩
  | missing hno _ =>
    have hnone : ∀ i < c, ¬ hasName name (slot f i) :=
      fun i hi hp => Bool.false_ne_true ((hno i (Nat.zero_le i) hi).symm.trans hp)
    refine .inl ⟨?_, rfl, hnone⟩
    refine Option.eq_none_iff_forall_ne_some.mpr fun k hk => ?_
    obtain ⟨i, hi, hp, -⟩ := (h.bound name k).mp hk
    exact hnone i hi hp

/-- Where a name can be added. -/
def canAdd (D : Name → Option Nat) (name : Name) : Prop :=
  name.val ≠ [] ∧ name.val.length ≤ nameMax ∧ D name = none

/-- The slot for a new name: the first one that is not in use, or the end. -/
structure FreeSlot (c : Nat) (f : List UInt8) (name : Name) (i : Nat) : Prop where
  le : i ≤ c
  free : i < c → inUse (slot f i) = false
  first : ∀ j < i, inUse (slot f j) = true
  other : ∀ j < c, hasName name (slot f j) = false

theorem FreeSlot.unique {j : Nat} (hi : FreeSlot c f name i) (hj : FreeSlot c f name j) :
    i = j := by
  have hlt : ∀ {i j}, FreeSlot c f name i → FreeSlot c f name j → ¬ i < j := by
    intro i j hi hj hij
    exact Bool.false_ne_true ((hi.free (hij.trans_le hj.le)).symm.trans (hj.first i hij))
  exact Nat.le_antisymm (Nat.not_lt.mp (hlt hj hi)) (Nat.not_lt.mp (hlt hi hj))

/-- **ADD** picks a slot that is not in use or the end of the file, unless the
    name is empty, too long or bound. -/
theorem IsMap.addEntry (h : IsMap c f D) (hc : 0 < c) (name : Name) (sector : Nat)
    (e : List UInt8) :
    (¬ canAdd D name ∧
      MavDir.addEntry (readAt f entrySize) (scanFuel f.length) name sector e = none) ∨
    canAdd D name ∧ ∃ i e', FreeSlot c f name i ∧ e'.length = entrySize ∧
      MavDir.addEntry (readAt f entrySize) (scanFuel f.length) name sector e =
        some (entrySize * i, fillEntry e' name sector) := by
  unfold MavDir.addEntry
  split
  · rename_i hv
    refine .inl ⟨fun ha => ?_, rfl⟩
    rcases hv with hv | hv
    · exact ha.1 hv
    · exact Nat.not_lt.mpr ha.2.1 hv
  rename_i hv
  obtain ⟨hne, hle⟩ := not_or.mp hv
  rcases h.lookup name with ⟨hD, hl, hno⟩ | ⟨i, -, -, hD, hl⟩
  · simp only [hl]
    refine .inr ⟨⟨hne, Nat.not_lt.mp hle, hD⟩, ?_⟩
    have hno : ∀ j < c, hasName name (slot f j) = false :=
      fun j hj => Bool.eq_false_iff.mpr (hno j hj)
    have hs := scan_spec h.length (fun e => !inUse e) (scanFuel f.length) (Nat.zero_le c) h.fuel e
    generalize scan (readAt f entrySize) (fun e => !inUse e) (scanFuel f.length) 0 e = r at hs ⊢
    cases hs with
    | found _ hi hp hfull =>
      refine ⟨_, _, ⟨hi.le, fun _ => ?_, fun j hj => ?_, hno⟩, length_slot h.length hi, rfl⟩
      · rwa [Bool.not_eq_true'] at hp
      · have hu := hfull j (Nat.zero_le j) hj
        rwa [Bool.not_eq_false'] at hu
    | missing hfull he =>
      refine ⟨c, _, ⟨le_rfl, fun hlt => absurd hlt (lt_irrefl c), fun j hj => ?_, hno⟩,
        he (.inr hc), rfl⟩
      have hu := hfull j (Nat.zero_le j) hj
      rwa [Bool.not_eq_false'] at hu
  · simp only [hl]
    exact .inl ⟨(fun ha => nomatch hD.symm.trans ha.2.2), trivial⟩

/-- The map with a new binding. -/
theorem IsMap.add (h : IsMap c f D) {sector : Nat} (hsector : sector < 2 ^ 32)
    (hs : FreeSlot c f name i) (he : e.length = entrySize) (ha : canAdd D name) :
    IsMap (max c (i + 1)) (writeAt 0 f (fillEntry e name sector) (entrySize * i))
      (Function.update D name (some sector)) := by
  obtain ⟨hi, hfree, -, hno⟩ := hs
  have hb := length_fillEntry he ha.2.1 sector
  have hslot := slot_writeAt h.length hi hb
  have hold : ∀ j, j < max c (i + 1) → j ≠ i → j < c := by omega
  have hname : hasName name (fillEntry e name sector) = true :=
    hasName_iff.mpr ⟨inUse_fillEntry he ha.2.1 sector, entryName_fillEntry he ha.2.1 sector⟩
  -- no other slot has the new name
  have hother : ∀ j, j < max c (i + 1) → j ≠ i → inUse (slot f j) →
      entryName (slot f j) ≠ name.val := by
    intro j hj hji hu hn
    exact Bool.false_ne_true ((hno j (hold j hj hji)).symm.trans (hasName_iff.mpr ⟨hu, hn⟩))
  refine ⟨length_write_slot h.length hb, fun j hj => ?_, fun j hj k hk => ?_, fun n k => ?_⟩
  · rw [hslot j hj]
    split
    · rw [entryName_fillEntry he ha.2.1]
      exact fun _ => ⟨ha.1, ha.2.1⟩
    · rename_i hji
      exact h.valid j (hold j hj hji)
  · rw [hslot j hj, hslot k hk]
    by_cases hji : j = i <;> by_cases hki : k = i
    · exact fun _ _ _ => hji.trans hki.symm
    · rw [if_pos hji, if_neg hki, entryName_fillEntry he ha.2.1]
      exact fun _ hu hn => absurd hn.symm (hother k hk hki hu)
    · rw [if_neg hji, if_pos hki, entryName_fillEntry he ha.2.1]
      exact fun hu _ hn => absurd hn (hother j hj hji hu)
    · rw [if_neg hji, if_neg hki]
      exact h.unique j (hold j hj hji) k (hold k hk hki)
  · by_cases hn : n = name
    · subst hn
      rw [Function.update_self]
      constructor
      · intro hk
        refine ⟨i, by omega, ?_⟩
        rw [hslot i (by omega), if_pos rfl, inodeSector_fillEntry he ha.2.1,
          Nat.mod_eq_of_lt hsector]
        exact ⟨hname, Option.some.inj hk⟩
      · rintro ⟨j, hj, hp, hk⟩
        rw [hslot j hj] at hp hk
        by_cases hji : j = i
        · rw [if_pos hji, inodeSector_fillEntry he ha.2.1, Nat.mod_eq_of_lt hsector] at hk
          rw [hk]
        · rw [if_neg hji, hno j (hold j hj hji)] at hp
          exact nomatch hp
    · rw [Function.update_of_ne hn, h.bound]
      constructor
      · rintro ⟨j, hj, hp, hk⟩
        have hji : j ≠ i := by
          rintro rfl
          exact Bool.false_ne_true ((hfree hj).symm.trans (hasName_iff.mp hp).1)
        refine ⟨j, by omega, ?_⟩
        rw [hslot j (by omega), if_neg hji]
        exact ⟨hp, hk⟩
      · rintro ⟨j, hj, hp, hk⟩
        rw [hslot j hj] at hp hk
        by_cases hji : j = i
        · rw [if_pos hji] at hp
          have hnn := (hasName_iff.mp hp).2
          rw [entryName_fillEntry he ha.2.1] at hnn
          exact absurd (Subtype.ext hnn.symm) hn
        · rw [if_neg hji] at hp hk
          exact ⟨j, hold j hj hji, hp, hk⟩

/-- The map without a binding. -/
theorem IsMap.erase (h : IsMap c f D) (hi : i < c) (hn : hasName name (slot f i)) :
    IsMap c (writeAt 0 f (eraseEntry (slot f i)) (entrySize * i))
      (Function.update D name none) := by
  have he := length_slot h.length hi
  have hb := length_eraseEntry he
  have hmax : max c (i + 1) = c := by omega
  have hslot := slot_writeAt h.length hi.le hb
  have hlen := length_write_slot (i := i) h.length hb
  rw [hmax] at hslot hlen
  have hgone : inUse (eraseEntry (slot f i)) = false := inUse_eraseEntry he
  refine ⟨hlen, fun j hj => ?_, fun j hj k hk => ?_, fun n k => ?_⟩
  · rw [hslot j hj]
    split
    · rw [hgone]
      exact nofun
    · exact h.valid j hj
  · rw [hslot j hj, hslot k hk]
    by_cases hji : j = i
    · rw [if_pos hji, hgone]
      exact nofun
    · by_cases hki : k = i
      · rw [if_pos hki, hgone]
        exact nofun
      · rw [if_neg hji, if_neg hki]
        exact h.unique j hj k hk
  · have hiff : (∃ j < c, hasName n (slot (writeAt 0 f (eraseEntry (slot f i)) (entrySize * i)) j) ∧
        inodeSector (slot (writeAt 0 f (eraseEntry (slot f i)) (entrySize * i)) j) = k) ↔
        ∃ j < c, j ≠ i ∧ hasName n (slot f j) ∧ inodeSector (slot f j) = k := by
      refine exists_congr fun j => and_congr_right fun hj => ?_
      rw [hslot j hj]
      split
      · rename_i hji
        refine ⟨fun hp => ?_, fun hp => absurd hji hp.1⟩
        exact absurd (hasName_iff.mp hp.1).1 (Bool.eq_false_iff.mp hgone)
      · rename_i hji
        exact ⟨fun hp => ⟨hji, hp⟩, fun hp => hp.2⟩
    rw [hiff]
    by_cases hnn : n = name
    · subst hnn
      rw [Function.update_self]
      refine ⟨nofun, ?_⟩
      rintro ⟨j, hj, hji, hp, -⟩
      exact absurd (h.slot_unique hj hi hp hn) hji
    · rw [Function.update_of_ne hnn, h.bound]
      refine exists_congr fun j => and_congr_right fun hj => ?_
      refine ⟨fun hp => ⟨?_, hp⟩, fun hp => hp.2⟩
      rintro rfl
      exact hnn (Subtype.ext ((hasName_iff.mp hp.1).2.symm.trans (hasName_iff.mp hn).2))

/-! ## Listing -/

/-- The names in the slots from `k` on that are in use. -/
def namesFrom (f : List UInt8) (c k : Nat) : List (List UInt8) :=
  ((List.range' k (c - k)).filter fun i => inUse (slot f i)).map fun i => entryName (slot f i)

theorem namesFrom_succ {k : Nat} (hk : k < c) (f : List UInt8) :
    namesFrom f c k = if inUse (slot f k) then entryName (slot f k) :: namesFrom f c (k + 1)
      else namesFrom f c (k + 1) := by
  have hsub : c - k = (c - (k + 1)) + 1 := by omega
  unfold namesFrom
  rw [hsub, List.range'_succ, filter_cons]
  by_cases hu : inUse (slot f k) = true
  · rw [if_pos hu, if_pos hu, map_cons]
  · rw [if_neg hu, if_neg hu]

/-- Slots that are not in use have no name. -/
theorem namesFrom_skip {k : Nat} (hki : k ≤ i) (hi : i ≤ c)
    (hno : ∀ j, k ≤ j → j < i → inUse (slot f j) = false) : namesFrom f c k = namesFrom f c i := by
  induction hki with
  | refl => rfl
  | step hki ih =>
    rw [ih (by omega) fun j h1 h2 => hno j h1 (by omega), namesFrom_succ hi,
      if_neg (Bool.eq_false_iff.mp (hno _ hki (Nat.lt_succ_self _)))]

/-- **READDIR**: repeated from the `k`-th slot on it gives the names there. -/
theorem readdirAll_eq (hf : f.length = entrySize * c) (fuel : Nat) (hfuel : c < fuel) (count : Nat) :
    ∀ k ≤ c, c < count + k →
      readdirAll (readAt f entrySize) fuel count (entrySize * k) = namesFrom f c k := by
  induction count with
  | zero => omega
  | succ count ih =>
    intro k hk hcount
    have hs := scan_spec hf inUse fuel hk (by omega) []
    unfold readdirAll readdir
    generalize scan (readAt f entrySize) inUse fuel (entrySize * k) [] = r at hs ⊢
    cases hs with
    | found h1 h2 hp hno =>
      show _ :: readdirAll (readAt f entrySize) fuel count _ = _
      rw [← Nat.mul_succ, ih _ h2 (by omega), namesFrom_skip h1 h2.le hno, namesFrom_succ h2,
        if_pos hp]
    | missing hno _ =>
      rw [namesFrom_skip hk le_rfl hno, namesFrom, Nat.sub_self]
      rfl

/-- An entry's name has no zero. -/
theorem zero_not_mem_entryName (e : List UInt8) : (0 : UInt8) ∉ entryName e := by
  intro h
  have := mem_takeWhile_imp h
  simp at this

/-- The names in use are those of the bindings, each once. -/
theorem IsMap.names (h : IsMap c f D) :
    ∃ L : List Name, namesFrom f c 0 = L.map Subtype.val ∧ L.Nodup ∧
      ∀ name, name ∈ L ↔ (D name).isSome := by
  refine ⟨((List.range' 0 (c - 0)).filter fun i => inUse (slot f i)).map
    fun i => ⟨entryName (slot f i), zero_not_mem_entryName _⟩, ?_, ?_, fun name => ?_⟩
  · rw [map_map]
    rfl
  · refine List.Nodup.map_on ?_ ((nodup_range').filter _)
    intro i hi j hj hn
    simp only [mem_filter, mem_range'_1, Nat.sub_zero, Nat.zero_add] at hi hj
    exact h.unique i hi.1.2 j hj.1.2 hi.2 hj.2 (Subtype.mk.inj hn)
  · rw [Option.isSome_iff_exists]
    simp only [mem_map, mem_filter, mem_range'_1, Nat.sub_zero, Nat.zero_add, Nat.zero_le, true_and]
    constructor
    · rintro ⟨i, ⟨hi, hu⟩, rfl⟩
      exact ⟨_, (h.bound _ _).mpr ⟨i, hi, hasName_iff.mpr ⟨hu, rfl⟩, rfl⟩⟩
    · rintro ⟨k, hk⟩
      obtain ⟨i, hi, hp, -⟩ := (h.bound name k).mp hk
      obtain ⟨hu, hn⟩ := hasName_iff.mp hp
      exact ⟨i, ⟨hi, hu⟩, Subtype.ext hn⟩

theorem inUse_zeros (k i : Nat) : inUse (slot (List.replicate k 0) i) = false := by
  have h0 : ∀ b ∈ slot (List.replicate k (0 : UInt8)) i, b = 0 :=
    fun b hb => eq_of_mem_replicate (mem_of_mem_drop (mem_of_mem_take hb))
  rw [inUse, getD_eq_getElem?_getD]
  cases hb : (slot (List.replicate k (0 : UInt8)) i)[19]? with
  | none => rfl
  | some b =>
    rw [h0 b (mem_of_getElem? hb)]
    rfl

/-- A directory of zeros binds nothing. -/
theorem isMap_zeros (c : Nat) : IsMap c (List.replicate (entrySize * c) 0) fun _ => none := by
  have hu := inUse_zeros (entrySize * c)
  refine ⟨length_replicate, fun i _ h => ?_, fun i _ j _ h => ?_, fun name k => ?_⟩
  · exact absurd h (Bool.eq_false_iff.mp (hu i))
  · exact absurd h (Bool.eq_false_iff.mp (hu i))
  · refine ⟨nofun, ?_⟩
    rintro ⟨i, -, hp, -⟩
    exact absurd (hasName_iff.mp hp).1 (Bool.eq_false_iff.mp (hu i))

end Map

end MavDir
