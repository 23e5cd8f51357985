import Easyio.Config.UserConfig

/-!
# The fields of the user configuration

A field reads and writes the bytes it covers and no others, provided that a
string has its zero inside its array (`Terminated`, `Fits`).  `get_set` says what
a field gives back after a value was put into it: numbers go through an `int` and
are cut to the size of the field (`kept`), strings come back as they were.

The fields that `parseJson` sets lie apart from each other, so after all of them
were set each one has the value it was given: `foldl_takeItem`, by induction on
the list of members.
-/

namespace Easyio.Config

open Bytes CString Json List Nat Nor W25q16

namespace Field

/-- A string has its zero inside its array. -/
def Terminated (m : Cells) : Field → Prop
  | text offset size _ => 0 ∈ window m offset size
  | _ => True

instance (m : Cells) (f : Field) : Decidable (f.Terminated m) := by
  cases f <;> unfold Terminated <;> infer_instance

def Inside (f : Field) : Prop := f.offset + f.size ≤ userSize

/-- The byte `i` belongs to the field. -/
def Covers (f : Field) (i : ℕ) : Prop := f.offset ≤ i ∧ i < f.offset + f.size

/-- The fields have no byte in common. -/
def Apart (f g : Field) : Prop := f.offset + f.size ≤ g.offset ∨ g.offset + g.size ≤ f.offset

instance (f : Field) : Decidable f.Inside := inferInstanceAs (Decidable (_ ≤ _))

instance (f g : Field) : Decidable (f.Apart g) := inferInstanceAs (Decidable (_ ∨ _))

/-- A string for the field is a string and has room in it. -/
def Fits (value : Value) : Field → Prop
  | text _ size _ => ∃ s, value = .str s ∧ 0 ∉ s ∧ s.length < size
  | _ => True

/-- What is left of a value in the field. -/
def kept (value : Value) : Field → Value
  | word _ => .num (valueint value % 2 ^ 32)
  | half _ => .num ((valueint value).bmod (2 ^ 16))
  | byte _ => .num (valueint value % 2 ^ 8)
  | text _ _ _ => value

/-! ## Reading -/

variable {m : Cells} {offset size i : ℕ} {bounded : Bool} {f : Field} {s : List UInt8}
  {value : Value}

theorem get_text (hinside : (text offset size bounded).Inside)
    (hterm : (text offset size bounded).Terminated m) :
    (text offset size bounded).get m = .str (cString (window m offset size)) := by
  have hend : userSize - offset = size + (userSize - offset - size) := by
    have : offset + size ≤ userSize := hinside
    omega
  rw [get, hend, window_add, cString_append_of_mem hterm]

theorem get_congr {m' : Cells} (hinside : f.Inside) (hterm : f.Terminated m)
    (h : ∀ i, f.Covers i → m' i = m i) : f.Terminated m' ∧ f.get m' = f.get m := by
  have hwindow : window m' f.offset f.size = window m f.offset f.size :=
    window_congr fun i hi => h _ ⟨Nat.le_add_right .., Nat.add_lt_add_left hi _⟩
  cases f with
  | word offset =>
    have hw : window m' offset 4 = window m offset 4 := hwindow
    exact ⟨trivial, by rw [get, get, hw]⟩
  | half offset =>
    have hw : window m' offset 2 = window m offset 2 := hwindow
    exact ⟨trivial, by rw [get, get, hw]⟩
  | byte offset =>
    have hbyte := h offset ⟨le_refl _, lt_succ_self _⟩
    exact ⟨trivial, by rw [get, get, hbyte]⟩
  | text offset size bounded =>
    have hw : window m' offset size = window m offset size := hwindow
    have hterm' : (text offset size bounded).Terminated m' := by
      rw [Terminated, hw]
      exact hterm
    exact ⟨hterm', by rw [get_text hinside hterm', get_text hinside hterm, hw]⟩

/-! ## Writing -/

theorem set_text (hlen : s.length < size) :
    (text offset size bounded).set m (.str s) = overwrite m offset (s ++ [0]) := by
  have hcut : snprintfS size s = s := take_of_length_le (le_sub_one_of_lt hlen)
  rw [set, hcut, ite_self]

theorem set_eq_overwrite (m : Cells) (hfits : f.Fits value) :
    ∃ data, data.length ≤ f.size ∧ f.set m value = overwrite m f.offset data := by
  cases f with
  | word offset => exact ⟨le32 (.ofBitVec (.ofInt 32 (valueint value))), le_refl 4, rfl⟩
  | half offset => exact ⟨le16 (.ofBitVec (.ofInt 16 (valueint value))), le_refl 2, rfl⟩
  | byte offset => exact ⟨[.ofBitVec (.ofInt 8 (valueint value))], le_refl 1, rfl⟩
  | text offset size bounded =>
    obtain ⟨s, rfl, -, hlen⟩ := hfits
    refine ⟨s ++ [0], ?_, set_text hlen⟩
    rw [length_append]
    exact hlen

theorem set_apply_of_not_covers (hfits : f.Fits value) (hi : ¬ f.Covers i) :
    f.set m value i = m i := by
  obtain ⟨data, hlen, hset⟩ := set_eq_overwrite m hfits
  rw [hset]
  rcases lt_or_ge i f.offset with hlt | hge
  · exact overwrite_apply_of_lt _ hlt
  · have hend : f.offset + f.size ≤ i := Nat.le_of_not_lt fun hlt => hi ⟨hge, hlt⟩
    exact overwrite_apply_of_ge (Nat.le_trans (Nat.add_le_add_left hlen _) hend)

section

variable (m : Cells) (value : Value) (offset : ℕ)

theorem get_set_word :
    (word offset).get ((word offset).set m value) = (word offset).kept value := by
  set x : UInt32 := .ofBitVec (.ofInt 32 (valueint value))
  have hwindow : window (overwrite m offset (le32 x)) offset 4 = le32 x :=
    window_overwrite m offset (le32 x)
  have hread : getLe32 (le32 x) 0 = x := by
    have h := getLe32_le32 [] [] x
    rwa [append_nil] at h
  have hvalue : (x.toNat : ℤ) = valueint value % 2 ^ 32 := by
    exact Int.toNat_of_nonneg (Int.emod_nonneg _ (by decide))
  rw [set, get, hwindow, hread, hvalue, kept]

theorem get_set_half :
    (half offset).get ((half offset).set m value) = (half offset).kept value := by
  set x : UInt16 := .ofBitVec (.ofInt 16 (valueint value))
  have hwindow : window (overwrite m offset (le16 x)) offset 2 = le16 x :=
    window_overwrite m offset (le16 x)
  have hread : getLe16 (le16 x) 0 = x := by
    have h := getLe16_le16 [] [] x
    rwa [append_nil] at h
  have hvalue : x.toBitVec.toInt = (valueint value).bmod (2 ^ 16) := by
    rw [BitVec.toInt_ofInt]
  rw [set, get, hwindow, hread, hvalue, kept]

theorem get_set_byte :
    (byte offset).get ((byte offset).set m value) = (byte offset).kept value := by
  set x : UInt8 := .ofBitVec (.ofInt 8 (valueint value))
  have hcell : overwrite m offset [x] offset = x := by
    have h : window (overwrite m offset [x]) offset 1 = [x] :=
      window_overwrite m offset [x]
    exact (List.cons.inj h).1
  have hvalue : (x.toNat : ℤ) = valueint value % 2 ^ 8 := by
    exact Int.toNat_of_nonneg (Int.emod_nonneg _ (by decide))
  rw [set, get, hcell, hvalue, kept]

end

theorem window_set_text (m : Cells) (offset : ℕ) (hlen : s.length < size) : ∃ rest,
    window (overwrite m offset (s ++ [0])) offset size = s ++ 0 :: rest := by
  have hsize : size = (s ++ [0]).length + (size - (s.length + 1)) := by
    rw [length_append, length_singleton]
    omega
  rw [hsize, window_add, window_overwrite, append_assoc]
  exact ⟨_, rfl⟩

theorem get_set (m : Cells) (hinside : f.Inside) (hfits : f.Fits value) :
    f.Terminated (f.set m value) ∧ f.get (f.set m value) = f.kept value := by
  cases f with
  | word offset => exact ⟨trivial, get_set_word m value offset⟩
  | half offset => exact ⟨trivial, get_set_half m value offset⟩
  | byte offset => exact ⟨trivial, get_set_byte m value offset⟩
  | text offset size bounded =>
    obtain ⟨s, rfl, hzero, hlen⟩ := hfits
    obtain ⟨rest, hwindow⟩ := window_set_text m offset hlen
    have hterm : (text offset size bounded).Terminated
        ((text offset size bounded).set m (.str s)) := by
      rw [set_text hlen, Terminated, hwindow]
      exact mem_append_right _ mem_cons_self
    refine ⟨hterm, ?_⟩
    rw [get_text hinside hterm, set_text hlen, hwindow, cString_append_zero hzero, kept]

/-- The field has its own value, of which `value` was put into it. -/
def Settled (value : Value) (m : Cells) (f : Field) : Prop :=
  f.Terminated m ∧ f.get m = f.kept value

theorem not_covers_of_apart {g : Field} (h : f.Apart g) (hi : f.Covers i) : ¬ g.Covers i := by
  intro hg
  obtain ⟨hflow, hfhigh⟩ := hi
  obtain ⟨hglow, hghigh⟩ := hg
  rcases h with hbefore | hbehind
  · omega
  · omega

end Field

/-! ## All the fields -/

section Table

variable {o : Object} {value : Field → Value} {table : List (List UInt8 × Field)}

/-- The object has a value for the member, and it fits. -/
def Supplied (o : Object) (value : Field → Value) (member : List UInt8 × Field) : Prop :=
  getObjectItem o member.1 = some (value member.2) ∧ member.2.Fits (value member.2) ∧
    member.2.Inside

theorem takeItem_eq {member : List UInt8 × Field} (m : Cells)
    (h : Supplied o value member) : takeItem o m member = member.2.set m (value member.2) := by
  rw [takeItem, h.1]

theorem foldl_takeItem_frame {i : ℕ} (m : Cells) (h : ∀ member ∈ table, Supplied o value member)
    (hi : ∀ member ∈ table, ¬ member.2.Covers i) : table.foldl (takeItem o) m i = m i := by
  induction table generalizing m with
  | nil => rfl
  | cons member rest ih =>
    obtain ⟨hmember, hrest⟩ := forall_mem_cons.mp h
    obtain ⟨himember, hirest⟩ := forall_mem_cons.mp hi
    rw [foldl_cons, ih _ hrest hirest, takeItem_eq m hmember]
    exact Field.set_apply_of_not_covers hmember.2.1 himember

/-- Setting fields that lie apart from each other settles each of them. -/
theorem foldl_takeItem (m : Cells) (h : ∀ member ∈ table, Supplied o value member)
    (hapart : table.Pairwise fun first second => first.2.Apart second.2) :
    ∀ member ∈ table, member.2.Settled (value member.2) (table.foldl (takeItem o) m) := by
  induction table generalizing m with
  | nil => exact fun member hmem => absurd hmem not_mem_nil
  | cons first rest ih =>
    obtain ⟨hfirst, hrest⟩ := forall_mem_cons.mp h
    obtain ⟨hapart, hpairs⟩ := pairwise_cons.mp hapart
    rw [foldl_cons]
    refine forall_mem_cons.mpr ⟨?_, ih _ hrest hpairs⟩
    -- the other fields leave the first one alone
    have hset := Field.get_set m hfirst.2.2 hfirst.2.1
    rw [takeItem_eq m hfirst]
    have hsame : ∀ i, first.2.Covers i →
        rest.foldl (takeItem o) (first.2.set m (value first.2)) i =
          first.2.set m (value first.2) i := fun i hi =>
      foldl_takeItem_frame _ hrest fun member hmem =>
        Field.not_covers_of_apart (hapart member hmem) hi
    obtain ⟨hterm, hget⟩ := Field.get_congr hfirst.2.2 hset.1 hsame
    exact ⟨hterm, hget.trans hset.2⟩

end Table

end Easyio.Config
