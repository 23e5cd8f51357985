import Easyio.Config.UserFields
import Easyio.Json.Parse
import Mathlib.Algebra.Group.Action.Defs
import Mathlib.Algebra.Order.BigOperators.Group.List
import Mathlib.Algebra.Order.Ring.Nat

/-!
# The user configuration after a reset

`userapp_writeconfig` writes a text whose length depends on the fields, and
`userapp_readconfig` reads 511 bytes of it.  A longer text is cut off.  What
happens then depends on whether the word `JSON_FLAG` is still there:

* with the word, `cJSON_Parse` refuses the text and the structure stays as the
  reset left it, all zero;
* without it the text is taken for the structure itself, and if its CRC is wrong,
  as one expects, the defaults are set and written over the text.

None of the three gives the fields back (`not_restored_of_long`).  A text of at
most 511 bytes is parsed, and then a number comes back if it is one of C's `int`
(`restored_iff_of_short`).  The two together are `userconfig_restored_iff`.
-/

namespace Easyio.Config

open Bytes CString Easyio.Config.Field Json List Nat Nor Value W25q16

/-- The strings have their zeros inside their arrays. -/
def UserTerminated (m : Cells) : Prop := ∀ member ∈ members, member.2.Terminated m

instance (m : Cells) : Decidable (UserTerminated m) := inferInstanceAs (Decidable (∀ _ ∈ _, _))

/-- Each persisted field of `m'` is that of `m`. -/
def Restored (m m' : Cells) : Prop := ∀ member ∈ members, member.2.get m' = member.2.get m

/-- `PRESENCE_UPLOAD_PREIOD` -/
def uploadPreiod (m : Cells) : ℕ := (getLe32 (window m 1 4) 0).toNat

/-- `PRESENCE_BC_COUNT` -/
def bcCount (m : Cells) : ℕ := (getLe32 (window m 5 4) 0).toNat

/-- The bytes that the fields need as text: 24 for the object and its flag, and for each
field the value, the name and 7 bytes around them. -/
def textSize (m : Cells) : ℕ :=
  24 + (members.map fun member => 7 + member.1.length + (member.2.get m).size).sum

/-- The structure in a chip that was reset after `userapp_writeconfig`, when
`userapp_readconfig` has run. -/
def afterReset (parse : List UInt8 → Option Object) (m : Cells) (d : Driver) : Cells :=
  (userappReadconfig true parse (fun _ => 0) (Driver.boot (userappWriteconfig m d).flash)).1

/-! ## The tables -/

/-- The names are C strings with nothing to escape, and differ also without their
capitals. -/
theorem names_spec :
    (∀ member ∈ members, (str member.1).size = 2 + member.1.length ∧ 0 ∉ member.1) ∧
      (members.map fun member => 7 + member.1.length).sum = 255 ∧
      ((members.map fun member => member.1.map toLower) ++
        [(ascii "JSON_FLAG").map toLower]).Nodup := by
  decide +kernel

theorem flag_spec : (0 ∉ ascii "JSON_FLAG" ∧ 0 ∉ ascii "JSON") ∧
      memberSize (ascii "JSON_FLAG", .str (ascii "JSON")) = 22 ∧
      printMember (ascii "JSON_FLAG", .str (ascii "JSON")) =
        [9, 34] ++ (ascii "JSON_FLAG" ++ ([34, 58, 9] ++ printString (ascii "JSON"))) := by
  decide +kernel

/-- `parseJson` looks for the members that `makeJson` adds, and their fields lie apart. -/
theorem parsed_spec :
    parsed.Perm members ∧ (∀ member ∈ parsed, member.2.Inside) ∧
      parsed.Pairwise fun first second => first.2.Apart second.2 := by
  decide +kernel

/-! ## The text -/

section

variable (m : Cells)
include m

theorem length_makeJson : (makeJson m).length = textSize m := by
  have hfields : (members.map fun member => memberSize (member.1, member.2.get m)) =
      members.map fun member => 7 + member.1.length + (member.2.get m).size := by
    refine map_congr_left fun member hmem => ?_
    have hname := (names_spec.1 member hmem).1
    simp only [memberSize]
    omega
  have hflag := flag_spec.2.1
  have hne : jsonRoot m ≠ [] := append_ne_nil_of_right_ne_nil _ (cons_ne_nil _ _)
  rw [makeJson, length_print hne, jsonRoot, map_append, map_map, sum_append_nat, map_singleton,
    sum_singleton, textSize, ← hfields]
  simp only [Function.comp_def]
  omega

theorem zero_notMem_makeJson : 0 ∉ makeJson m := zero_notMem_print _

theorem inC_get (f : Field) : (f.get m).InC := by
  cases f with
  | word offset =>
    have h := (getLe32 (window m offset 4) 0).toNat_lt
    rw [Field.get, Value.InC]
    omega
  | half offset =>
    have hlow := (getLe16 (window m offset 2) 0).toBitVec.le_toInt
    have hhigh := (getLe16 (window m offset 2) 0).toBitVec.toInt_lt
    rw [Field.get, Value.InC]
    omega
  | byte offset =>
    have h := (m offset).toNat_lt
    rw [Field.get, Value.InC]
    omega
  | text offset size bounded => exact zero_notMem_cString _

theorem inC_jsonRoot : InC (jsonRoot m) := by
  intro member hmem
  rcases mem_append.mp hmem with hfield | hflag
  · obtain ⟨entry, hentry, rfl⟩ := mem_map.mp hfield
    exact ⟨(names_spec.1 entry hentry).2, inC_get m entry.2⟩
  · rw [mem_singleton.mp hflag]
    exact flag_spec.1

theorem size_get_le (f : Field) : (f.get m).size ≤ 2180 := by
  have hInC := inC_get m f
  cases hvalue : f.get m with
  | num n =>
    rw [hvalue] at hInC
    have habs : n.natAbs < 10 ^ 10 := by
      obtain ⟨hlow, hhigh⟩ := hInC
      omega
    have hdigits := (length_toDigits_le_iff (by decide) (by decide)).mpr habs
    rw [Value.size]
    split
    · omega
    · omega
  | str s =>
    have hlen : s.length ≤ userSize := by
      cases f with
      | word | half | byte => exact Value.noConfusion hvalue
      | text offset size bounded =>
        rw [← str.inj hvalue]
        refine (length_cString_le _).trans ?_
        rw [length_window]
        exact sub_le _ _
    have hchars : (s.map charSize).sum ≤ (s.map charSize).length • 6 := by
      refine sum_le_card_nsmul _ _ fun n hn => ?_
      obtain ⟨b, -, rfl⟩ := mem_map.mp hn
      rw [charSize]
      split_ifs <;> decide
    rw [length_map, smul_eq_mul] at hchars
    rw [Value.size]
    rw [userSize] at hlen
    omega

/-- The names are the same in every text. -/
theorem textSize_eq : textSize m = 279 + (members.map fun member => (member.2.get m).size).sum := by
  rw [textSize, sum_map_add, names_spec.2.1, ← add_assoc]

theorem textSize_le : textSize m ≤ 40000 := by
  have hlen : members.length = 15 := rfl
  have hsum : (members.map fun member => (member.2.get m).size).sum ≤
      (members.map fun member => (member.2.get m).size).length • 2180 := by
    refine sum_le_card_nsmul _ _ fun n hn => ?_
    obtain ⟨member, -, rfl⟩ := mem_map.mp hn
    exact size_get_le m member.2
  rw [length_map, smul_eq_mul] at hsum
  rw [textSize_eq]
  omega

/-! ## The buffer -/

theorem userappWriteconfig_eq_session (d : Driver) :
    userappWriteconfig m d = session userAppConfigAddress [makeJson m] d := by
  rw [userappWriteconfig, session, foldl_cons, foldl_nil]

theorem window_userappWriteconfig (d : Driver) :
    window (userappWriteconfig m d).flash userAppConfigAddress (textSize m) = makeJson m := by
  have hflat : [makeJson m].flatten = makeJson m := flatten_singleton
  have hroom : userAppConfigAddress + [makeJson m].flatten.length ≤ capacity := by
    have hbound := textSize_le m
    have hcap : userAppConfigAddress + 40000 ≤ capacity := by decide
    rw [hflat, length_makeJson]
    omega
  have hcontent := (session_content d (by decide) hroom).1
  rw [hflat, length_makeJson] at hcontent
  rw [userappWriteconfig_eq_session]
  exact hcontent

end

/-- `json_buffer` after the reset. -/
def jsonBuffer (m : Cells) (d : Driver) : List UInt8 :=
  (window (userappWriteconfig m d).flash userAppConfigAddress 512).set 511 0

variable {m m' : Cells} {parse : List UInt8 → Option Object}

theorem jsonBuffer_of_short (d : Driver) (h : textSize m ≤ 511) :
    ∃ rest, cString (jsonBuffer m d) = makeJson m ++ rest := by
  have hsplit : 512 = textSize m + (512 - textSize m) := by omega
  have hlen : (makeJson m).length ≤ 511 := by rwa [length_makeJson]
  rw [jsonBuffer, hsplit, window_add, window_userappWriteconfig, set_append_right _ _ hlen,
    cString_append_of_notMem (zero_notMem_makeJson m)]
  exact ⟨_, rfl⟩

theorem jsonBuffer_of_long (d : Driver) (h : 511 < textSize m) :
    jsonBuffer m d = (makeJson m).take 511 ++ [0] := by
  have hsplit : textSize m = 511 + (textSize m - 511) := by omega
  have hwindow := window_userappWriteconfig m d
  rw [hsplit, window_add] at hwindow
  have hfront : window (userappWriteconfig m d).flash userAppConfigAddress 511 =
      (makeJson m).take 511 := by
    rw [← hwindow, take_left' (length_window ..)]
  have hlen : ((makeJson m).take 511).length = 511 := by
    rw [length_take, length_makeJson]
    omega
  rw [jsonBuffer, window_succ, hfront, set_append_right _ _ hlen.le, hlen]
  rfl

/-! ## A text that fits -/

theorem strstr_makeJson (m : Cells) (rest : List UInt8) :
    (strstr (ascii "JSON_FLAG") (makeJson m ++ rest)).isSome := by
  obtain ⟨front, hfront⟩ := printMembers_append_singleton
    (members.map fun member => (member.1, member.2.get m)) (ascii "JSON_FLAG", .str (ascii "JSON"))
  have htext : makeJson m ++ rest = ([123, 10] ++ front ++ [9, 34]) ++ (ascii "JSON_FLAG" ++
      ([34, 58, 9] ++ printString (ascii "JSON") ++ [10, 125] ++ rest)) := by
    rw [makeJson, print, jsonRoot, hfront, flag_spec.2.2]
    simp only [append_assoc]
  rw [htext]
  exact strstr_append _ _ _

theorem getObjectItem_of_mem {o : Object} {name : List UInt8} {value : Value}
    (hnames : (o.map fun member => member.1.map toLower).Nodup) (h : (name, value) ∈ o) :
    getObjectItem o name = some value := by
  induction o with
  | nil => cases h
  | cons first rest ih =>
    rw [map_cons, nodup_cons] at hnames
    rw [getObjectItem, find?_cons]
    rcases mem_cons.mp h with rfl | hrest
    · rw [decide_eq_true rfl]
      rfl
    · have hother : first.1.map toLower ≠ name.map toLower := fun heq =>
        hnames.1 (heq ▸ mem_map.mpr ⟨(name, value), hrest, rfl⟩)
      rw [decide_eq_false hother]
      exact ih hnames.2 hrest

theorem getObjectItem_jsonRoot (m : Cells) {member : List UInt8 × Field}
    (h : member ∈ members) : getObjectItem (jsonRoot m) member.1 = some (member.2.get m) := by
  have hnames : ((jsonRoot m).map fun member => member.1.map toLower) =
      (members.map fun member => member.1.map toLower) ++ [(ascii "JSON_FLAG").map toLower] := by
    rw [jsonRoot]
    rfl
  refine getObjectItem_of_mem (by rw [hnames]; exact names_spec.2.2) ?_
  exact mem_append_left _ (mem_map.mpr ⟨member, h, rfl⟩)

theorem fits_get {f : Field} (hinside : f.Inside) (hterm : f.Terminated m) : f.Fits (f.get m) := by
  cases f with
  | word offset => trivial
  | half offset => trivial
  | byte offset => trivial
  | text offset size bounded =>
    refine ⟨_, get_text hinside hterm, zero_notMem_cString _, ?_⟩
    have hlen := length_cString_lt hterm
    rwa [length_window] at hlen

/-- The field keeps its own value: an `unsigned int` if it is one of an `int`. -/
def Field.Signed (m : Cells) : Field → Prop
  | word offset => (getLe32 (window m offset 4) 0).toNat < 2 ^ 31
  | _ => True

theorem kept_get_iff (m : Cells) (f : Field) : f.kept (f.get m) = f.get m ↔ f.Signed m := by
  have hInC := inC_get m f
  cases f with
  | word offset =>
    rw [Field.get, kept, valueint, Signed, num.injEq]
    have hlt := (getLe32 (window m offset 4) 0).toNat_lt
    omega
  | half offset =>
    have hlow := (getLe16 (window m offset 2) 0).toBitVec.le_toInt
    have hhigh := (getLe16 (window m offset 2) 0).toBitVec.toInt_lt
    set n := (getLe16 (window m offset 2) 0).toBitVec.toInt
    have hint : valueint (.num n) = n := by
      rw [valueint]
      omega
    refine iff_of_true ?_ trivial
    rw [Field.get, kept, num.injEq, hint]
    exact Int.bmod_eq_of_le (by omega) (by omega)
  | byte offset =>
    have hlt := (m offset).toNat_lt
    refine iff_of_true ?_ trivial
    rw [Field.get, kept, valueint, num.injEq]
    omega
  | text offset size bounded => exact ⟨fun _ => trivial, fun _ => rfl⟩

theorem signed_iff (m : Cells) : (∀ member ∈ members, member.2.Signed m) ↔
    uploadPreiod m < 2 ^ 31 ∧ bcCount m < 2 ^ 31 := by
  simp [members, Signed, uploadPreiod, bcCount]

theorem settled_parsed (m' : Cells) (hterm : UserTerminated m) :
    ∀ member ∈ members,
      member.2.Settled (member.2.get m) (parsed.foldl (takeItem (jsonRoot m)) m') := by
  obtain ⟨hperm, hinside, hapart⟩ := parsed_spec
  have hsupplied : ∀ member ∈ parsed, Supplied (jsonRoot m) (fun f => f.get m) member := by
    intro member hmem
    have hmember := hperm.mem_iff.mp hmem
    have hinside := hinside member hmem
    exact ⟨getObjectItem_jsonRoot m hmember, fits_get hinside (hterm member hmember), hinside⟩
  exact fun member hmem => foldl_takeItem m' hsupplied hapart member (hperm.mem_iff.mpr hmem)

/-- The structure when the buffer holds no text: the bytes of the buffer themselves, or
the defaults. -/
def binConfig (buffer : List UInt8) (m : Cells) : Cells :=
  let m := overwrite m 0 (buffer.take userSize)
  if getLe16 (window m 361 2) 0 = sdkStreamCrc16Calc (window m 0 361) then m
  else clearApn (defaultUserconfig m)

theorem userappReadconfig_eq (parse : List UInt8 → Option Object) {d : Driver} {buffer : List UInt8}
    (h : (spiFlashRead d userAppConfigAddress 512).set 511 0 = buffer) :
    (userappReadconfig true parse m d).1 =
      if (strstr (ascii "JSON_FLAG") (cString buffer)).isSome then
        parseJson parse m (cString buffer)
      else binConfig buffer m := by
  simp only [userappReadconfig, if_true, h, binConfig]
  split
  · rfl
  · split <;> rfl

theorem afterReset_eq (parse : List UInt8 → Option Object) (m : Cells) (d : Driver) :
    afterReset parse m d =
      if (strstr (ascii "JSON_FLAG") (cString (jsonBuffer m d))).isSome then
        parseJson parse (fun _ => 0) (cString (jsonBuffer m d))
      else binConfig (jsonBuffer m d) fun _ => 0 := by
  refine userappReadconfig_eq parse ?_
  rw [spiFlashRead_eq_window _ (by decide), jsonBuffer, Driver.boot]

/-- A text of at most 511 bytes gives each number of an `int` back, and each string. -/
theorem restored_iff_of_short (d : Driver) (hparse : Faithful parse) (hterm : UserTerminated m)
    (hshort : textSize m ≤ 511) :
    Restored m (afterReset parse m d) ↔ uploadPreiod m < 2 ^ 31 ∧ bcCount m < 2 ^ 31 := by
  obtain ⟨rest, hbuffer⟩ := jsonBuffer_of_short d hshort
  have hread : parseJson parse (fun _ => 0) (makeJson m ++ rest) =
      parsed.foldl (takeItem (jsonRoot m)) fun _ => 0 := by
    rw [parseJson, makeJson, hparse.whole _ rest (inC_jsonRoot m)]
  rw [afterReset_eq, hbuffer, if_pos (strstr_makeJson m rest), hread, ← signed_iff]
  refine forall₂_congr fun member hmem => ?_
  rw [(settled_parsed _ hterm member hmem).2]
  exact kept_get_iff m member.2

/-! ## A text that is cut off -/

theorem textSize_of_restored (h : Restored m m') : textSize m' = textSize m := by
  have hfields : (members.map fun member => 7 + member.1.length + (member.2.get m').size) =
      members.map fun member => 7 + member.1.length + (member.2.get m).size :=
    map_congr_left fun member hmem => by rw [h member hmem]
  rw [textSize, textSize, hfields]

theorem not_restored_of_textSize (hlong : 511 < textSize m) (hshort : textSize m' ≤ 511) :
    ¬ Restored m m' := by
  intro h
  rw [textSize_of_restored h] at hshort
  exact absurd hlong (not_lt.mpr hshort)

theorem textSize_zero : textSize (fun _ => 0) ≤ 511 := by
  rw [textSize_eq]
  decide +kernel

theorem textSize_default : textSize (clearApn (defaultUserconfig fun _ => 0)) ≤ 511 := by
  rw [textSize_eq]
  decide +kernel

theorem cString_jsonBuffer_of_long (d : Driver) (h : 511 < textSize m) :
    cString (jsonBuffer m d) = (makeJson m).take 511 := by
  rw [jsonBuffer_of_long d h]
  exact cString_append_zero (fun hzero => zero_notMem_makeJson m (mem_of_mem_take hzero)) []

/-- With the flag in the part of the text that was read, nothing is taken from it. -/
theorem parseJson_of_long (m' : Cells) (hparse : Faithful parse) (h : 511 < textSize m) :
    parseJson parse m' ((makeJson m).take 511) = m' := by
  have hcut : (makeJson m).take 511 ≠ makeJson m := by
    intro heq
    have hlen := congrArg length heq
    rw [length_take, length_makeJson] at hlen
    omega
  have hnone : parse ((makeJson m).take 511) = none :=
    hparse.cut (jsonRoot m) _ (inC_jsonRoot m) ( take_prefix _ _) hcut
  rw [parseJson, hnone]

/-- The first bytes of the text, taken for the structure, leave no zero in it. -/
theorem get_host_of_raw (h : 511 < textSize m) : ∃ s, (text 9 128 false).get
      (overwrite (fun _ => 0) 0 ((makeJson m).take userSize)) = .str s ∧ s.length = 354 := by
  set raw := overwrite (fun _ => 0) 0 ((makeJson m).take userSize)
  have hlen : ((makeJson m).take userSize).length = 9 + 354 := by
    rw [length_take, length_makeJson, userSize]
    omega
  have hwindow : window raw 0 9 ++ window raw 9 354 = (makeJson m).take userSize := by
    have hwhole := window_overwrite (fun _ => 0) 0 ((makeJson m).take userSize)
    rwa [hlen, window_add] at hwhole
  have hzero : 0 ∉ window raw 9 354 := by
    intro hmem
    have htake : 0 ∈ (makeJson m).take userSize := by
      rw [← hwindow]
      exact mem_append_right _ hmem
    exact zero_notMem_makeJson m (mem_of_mem_take htake)
  refine ⟨window raw 9 354, ?_, length_window ..⟩
  have hrest : userSize - 9 = 354 := rfl
  rw [Field.get, hrest, cString_of_notMem hzero]

theorem not_restored_raw (hterm : UserTerminated m) (h : 511 < textSize m) :
    ¬ Restored m (overwrite (fun _ => 0) 0 ((makeJson m).take userSize)) := by
  intro hrestored
  have hmem : (ascii "HOST_ADDRESS", text 9 128 false) ∈ members :=
    .tail _ (.tail _ (.head _))
  obtain ⟨s, hs, hlen⟩ := get_host_of_raw h
  obtain ⟨s', hs', -, hlen'⟩ := fits_get (by decide) (hterm _ hmem)
  have hsame : s = s' := str.inj (hs.symm.trans ((hrestored _ hmem).trans hs'))
  rw [hsame] at hlen
  omega

theorem defaultUserconfig_overwrite {data : List UInt8} (m : Cells) (h : data.length ≤ userSize) :
    defaultUserconfig (overwrite m 0 data) = defaultUserconfig m := by
  have hclear : overwrite (overwrite m 0 data) 0 (replicate userSize 0) =
      overwrite m 0 (replicate userSize 0) :=
    overwrite_overwrite m 0 (by rwa [length_replicate])
  rw [defaultUserconfig, hclear, defaultUserconfig]

/-- A text of more than 511 bytes gives some field another value. -/
theorem not_restored_of_long (d : Driver) (hparse : Faithful parse) (hterm : UserTerminated m)
    (hlong : 511 < textSize m) : ¬ Restored m (afterReset parse m d) := by
  rw [afterReset_eq, cString_jsonBuffer_of_long d hlong]
  split
  · rw [parseJson_of_long _ hparse hlong]
    exact not_restored_of_textSize hlong textSize_zero
  · have hbuffer : (jsonBuffer m d).take userSize = (makeJson m).take userSize := by
      have hlen : userSize ≤ ((makeJson m).take 511).length := by
        rw [length_take, length_makeJson, userSize]
        omega
      rw [jsonBuffer_of_long d hlong, take_append_of_le_length hlen, take_take]
      rfl
    simp only [binConfig, hbuffer]
    split
    · exact not_restored_raw hterm hlong
    · rw [defaultUserconfig_overwrite _ (length_take_le ..)]
      exact not_restored_of_textSize hlong textSize_default

/-- The user configuration comes back from the chip exactly if its text has at most 511
bytes and its two `unsigned int` are in the range of an `int`. -/
theorem userconfig_restored_iff {parse : List UInt8 → Option Object} {m : Cells} (d : Driver)
    (hparse : Faithful parse) (hterm : UserTerminated m) :
    Restored m (afterReset parse m d) ↔
      textSize m ≤ 511 ∧ uploadPreiod m < 2 ^ 31 ∧ bcCount m < 2 ^ 31 := by
  rcases lt_or_ge 511 (textSize m) with hlong | hshort
  · exact iff_of_false (not_restored_of_long d hparse hterm hlong)
      fun h => absurd h.1 (not_le.mpr hlong)
  · rw [restored_iff_of_short d hparse hterm hshort]
    exact ⟨fun h => ⟨hshort, h⟩, fun h => h.2⟩

/-- The defaults with another `ACCOUNT`. -/
def ownConfig : Cells :=
  (text 139 32 false).set (defaultUserconfig fun _ => 0) (.str (ascii "tracker \"7\""))

theorem userconfig_restored_iff_account :
    Faithful Json.parse ∧ UserTerminated ownConfig ∧
      ¬ Restored ownConfig (defaultUserconfig fun _ => 0) ∧
      Restored ownConfig (afterReset Json.parse ownConfig (Driver.boot fun _ => 0xFF)) := by
  have hfacts : UserTerminated ownConfig ∧ textSize ownConfig ≤ 511 ∧
      uploadPreiod ownConfig < 2 ^ 31 ∧ bcCount ownConfig < 2 ^ 31 := by
    rw [textSize_eq]
    decide +kernel
  obtain ⟨hterm, hwhen⟩ := hfacts
  refine ⟨faithful_parse, hterm, fun hsame => ?_,
    (userconfig_restored_iff _ faithful_parse hterm).mpr hwhen⟩
  have haccount := hsame (ascii "ACCOUNT", text 139 32 false) (by decide)
  revert haccount
  decide +kernel

/-- A structure with long strings, each of them with its zero inside its array.  Its text
has more than 511 bytes. -/
def longConfig : Cells :=
  [(text 9 128 false, 48), (.text 139 32 false, 31), (.text 173 16 false, 15),
    (.text 189 16 false, 15), (.text 205 16 false, 15), (.text 221 16 false, 15),
    (.text 237 28 false, 20), (.text 265 32 true, 31), (.text 297 32 true, 31),
    (.text 329 32 true, 31)].foldl
    (fun m field => field.1.set m (.str (List.replicate field.2 97))) fun _ => 0

theorem longConfig_lost :
    UserTerminated longConfig ∧
      ¬ Restored longConfig (afterReset Json.parse longConfig (Driver.boot fun _ => 0xFF)) := by
  have hfacts : UserTerminated longConfig ∧ 511 < textSize longConfig := by
    rw [textSize_eq]
    decide +kernel
  exact ⟨hfacts.1, not_restored_of_long _ faithful_parse hfacts.1 hfacts.2⟩

end Easyio.Config
