import Easyio.CString.Basic

/-!
# The access point of a SIM card

`init_sim900_modem` asks the modem for the CCID of the card.  It skips the search for
an access point if the configuration holds one for this CCID.  Otherwise it tries the
rows of `apntable` for the code of the network, and stores the first one that connects
together with the CCID.  A `char` is unsigned on this processor.
-/

namespace Easyio.Modem

open CString List Option

/-- A row of `apntable`. -/
structure ApnTable where
  code : ℕ
  apn : List UInt8
  username : List UInt8
  password : List UInt8
  deriving DecidableEq

/-! ## The search -/

section

variable (apntable : List ApnTable) (code : ℕ)

/-- `get_apn_cnt` -/
def getApnCnt : UInt8 :=
  apntable.foldl (fun cnt row => if row.code = code then cnt + 1 else cnt) 0

/-- The loop of `get_apn`; nothing in it changes `cnt`. -/
def getApnLoop (code : ℕ) (index cnt : UInt8) : List ApnTable → Option ApnTable
  | [] => none
  | row :: rows =>
    if row.code = code then
      if cnt = index then some row else getApnLoop code index cnt rows
    else getApnLoop code index cnt rows

/-- `get_apn` -/
def getApn (index : UInt8) : Option ApnTable :=
  getApnLoop code index 0 apntable

/-- The rows that one search tries, from row `i` on and with `n` rows to go.  Attempt
`i` connects if `connects i`; the system is then reset. -/
def tryApns (apntable : List ApnTable) (code : ℕ) (connects : ℕ → Bool) :
    ℕ → ℕ → List ApnTable
  | 0, _ => []
  | n + 1, i =>
    match getApn apntable code (UInt8.ofNat i) with
    | none => []
    | some row => row :: if connects i then [] else tryApns apntable code connects n (i + 1)

/-- The rows up to the first one that connects. -/
def upToConnected (connects : ℕ → Bool) : ℕ → List ApnTable → List ApnTable
  | _, [] => []
  | i, row :: rows => row :: if connects i then [] else upToConnected connects (i + 1) rows

def rowsFor : List ApnTable :=
  apntable.filter (·.code = code)

/-- `get_apn` gives all the rows that `get_apn_cnt` counts, and the search tries the rows
for the network in their order until one connects. -/
def SearchComplete (connects : ℕ → Bool) : Prop :=
  (∀ i < (getApnCnt apntable code).toNat,
    getApn apntable code (UInt8.ofNat i) = (rowsFor apntable code)[i]?) ∧
  tryApns apntable code connects (getApnCnt apntable code).toNat 0 =
    upToConnected connects 0 (rowsFor apntable code)

end

variable (apntable : List ApnTable) (code : ℕ) (connects : ℕ → Bool)

theorem toNat_getApnCnt :
    (getApnCnt apntable code).toNat = (rowsFor apntable code).length % 256 := by
  have hcount (cnt : UInt8) (rows : List ApnTable) :
      rows.foldl (fun cnt _ => cnt + 1) cnt = cnt + UInt8.ofNat rows.length := by
    induction rows generalizing cnt with
    | nil => simp
    | cons row rows ih => simp [ih, UInt8.add_assoc, UInt8.add_comm]
  have hfilter : getApnCnt apntable code =
      (rowsFor apntable code).foldl (fun cnt _ => cnt + 1) 0 := by
    simp only [rowsFor, foldl_filter, getApnCnt, decide_eq_true_eq]
  simp [hfilter, hcount]

theorem getApn_zero : getApn apntable code 0 = (rowsFor apntable code).head? := by
  unfold getApn rowsFor
  induction apntable with
  | nil => rfl
  | cons row rows ih => by_cases hcode : row.code = code <;> simp [getApnLoop, hcode, ih]

/-- Only the first row is ever found. -/
theorem getApn_of_ne_zero {index : UInt8} (hindex : 0 ≠ index) :
    getApn apntable code index = none := by
  unfold getApn
  induction apntable with
  | nil => rfl
  | cons row rows ih => simp [getApnLoop, hindex, ih]

theorem tryApns_succ (n : ℕ) :
    tryApns apntable code connects (n + 1) 0 = (rowsFor apntable code).head?.toList := by
  have hone : getApn apntable code (UInt8.ofNat 1) = none :=
    getApn_of_ne_zero apntable code (by decide)
  have hstop : tryApns apntable code connects n 1 = [] := by
    cases n with
    | zero => rfl
    | succ n => rw [tryApns, hone]
  have hzero : getApn apntable code (UInt8.ofNat 0) = (rowsFor apntable code).head? :=
    getApn_zero apntable code
  rw [tryApns, hzero]
  cases (rowsFor apntable code).head? with
  | none => rfl
  | some row => simp [hstop]

theorem search_complete_iff :
    SearchComplete apntable code connects ↔
      (rowsFor apntable code).length ≤ 1 ∨
        (rowsFor apntable code).length % 256 = 1 ∧ connects 0 = true := by
  unfold SearchComplete
  rw [toNat_getApnCnt]
  have hhead := getApn_zero apntable code
  have hnext := @getApn_of_ne_zero apntable code (UInt8.ofNat 1) (by decide)
  have htry := tryApns_succ apntable code connects
  rcases hrows : rowsFor apntable code with _ | ⟨row, _ | ⟨second, rows⟩⟩ <;>
    rw [hrows] at hhead htry
  · simp [tryApns, upToConnected]
  · simp [htry, upToConnected, hhead]
  · rcases hcount : (row :: second :: rows).length % 256 with _ | _ | n
    · -- the count is zero again and nothing is tried
      simp [tryApns, upToConnected]
    · simp [htry, upToConnected, hhead]
    · -- the second row is asked for and not found
      constructor
      · rintro ⟨hall, -⟩
        have hsecond := hall 1 (by omega)
        rw [hnext] at hsecond
        cases hsecond
      · simp

/-- A network with two access points, the first of which does not connect: the second
one is never tried. -/
theorem second_apn_not_tried :
    ¬SearchComplete [⟨46692, ascii "internet", [], []⟩, ⟨46692, ascii "emome", [], []⟩] 46692
      (fun i => i == 1) := by
  unfold SearchComplete
  decide

/-! ## The stored access point -/

/-- `AT_CCID`: what it writes to `simcard_ccid` when it takes the reply.  It keeps as many
bytes as `modem_imei` has, and does not check that 24 bytes stand before the `OK`. -/
def atCcid (resp : List UInt8) : Option (List UInt8) :=
  if (strstr (ascii "ERROR") resp).isSome then none
  else
    (strstr (ascii "OK") resp).bind fun ok =>
      if (strstr (ascii "OK") (resp.drop (ok + 1))).isSome then none
      else some (snprintfS 16 (cString ((resp.drop (ok - 24)).take 20)))

/-- The test of `init_sim900_modem` with which it skips the search. -/
def skipsSearch (stored simcardCcid : List UInt8) : Bool := (strstr simcardCcid stored).isSome

/-- The CCID of a card. -/
def Ccid := { digits : List UInt8 // digits.length = 20 ∧ ∀ d ∈ digits, isDigit d = true }

/-- The reply of the modem to `AT+CCID`. -/
def Ccid.reply (ccid : Ccid) : List UInt8 :=
  ascii "\r\n+CCID: " ++ (ccid.1 ++ ascii "\r\n\r\nOK\r\n")

/-- `simcard_ccid` once the modem has reported the card, and before. -/
def simcardCcid (reported : Option Ccid) : List UInt8 :=
  (reported.bind fun ccid => atCcid ccid.reply).getD []

/-- The search is skipped only for the card the access point was stored for.  `stored` is
that card, if there is one; its `simcard_ccid` was copied into the configuration. -/
def SkipsOnlyFor (stored : Option Ccid) (inserted : Ccid) (reported : Bool) : Prop :=
  skipsSearch (simcardCcid stored) (simcardCcid (if reported then some inserted else none)) →
    stored = some inserted

/-- A byte in front of the needle's first one is passed over. -/
theorem strstr_append_of_notMem {b : UInt8} {head : List UInt8} (h : b ∉ head)
    (needle rest : List UInt8) :
    strstr (b :: needle) (head ++ rest) = (strstr (b :: needle) rest).map (· + head.length) := by
  induction head with
  | nil => simp
  | cons c head ih =>
    rw [mem_cons, not_or] at h
    simp [strstr, isPrefixOf, h.1, ih h.2, Function.comp_def, Nat.add_assoc]

theorem Ccid.strstr_reply (ccid : Ccid) (b : UInt8) (needle : List UInt8)
    (hhead : b ∉ ascii "\r\n+CCID: ") (hdigit : isDigit b = false) :
    strstr (b :: needle) ccid.reply =
      (strstr (b :: needle) (ascii "\r\n\r\nOK\r\n")).map (· + 29) := by
  have hdigits : b ∉ ccid.1 := by
    intro hmem
    rw [ccid.2.2 b hmem] at hdigit
    cases hdigit
  rw [reply, strstr_append_of_notMem hhead, strstr_append_of_notMem hdigits, ccid.2.1,
    Option.map_map]
  rfl

/-- The last five digits are lost. -/
theorem simcardCcid_some (ccid : Ccid) : simcardCcid (some ccid) = ccid.1.take 15 := by
  have herror : strstr (ascii "ERROR") ccid.reply = none :=
    ccid.strstr_reply 69 (ascii "RROR") (by decide) rfl
  have hok : strstr (ascii "OK") ccid.reply = some 33 :=
    ccid.strstr_reply 79 (ascii "K") (by decide) rfl
  have hdigits : (ccid.reply.drop (33 - 24)).take 20 = ccid.1 := take_left' ccid.2.1
  have hrest : ccid.reply.drop (33 + 1) = ascii "K\r\n" := by
    have hlen : (ascii "\r\n+CCID: " ++ ccid.1).length = 29 := by
      rw [length_append, ccid.2.1]
      rfl
    calc ccid.reply.drop (33 + 1) = (ccid.reply.drop 29).drop 5 := by rw [drop_drop]
      _ = (ascii "\r\n\r\nOK\r\n").drop 5 := by
        rw [Ccid.reply, ← append_assoc, drop_left' hlen]
  have hzero : 0 ∉ ccid.1 := by
    intro hmem
    cases ccid.2.2 0 hmem
  have hnone : strstr (ascii "OK") (ascii "K\r\n") = none := rfl
  simp [simcardCcid, atCcid, herror, hok, hdigits, hrest, hnone, cString_of_notMem hzero, snprintfS]

theorem skipsSearch_iff {stored ccid : List UInt8} (hne : ccid ≠ [])
    (hlen : stored.length ≤ ccid.length) : skipsSearch stored ccid = true ↔ stored = ccid := by
  constructor
  · intro h
    obtain ⟨i, hi⟩ := isSome_iff_exists.mp h
    have hroom := strstr_add_length_le hi hne
    obtain rfl : i = 0 := by omega
    exact ((prefix_of_strstr hi).eq_of_length_le hlen).symm
  · rintro rfl
    exact strstr_append_self [] stored

end Easyio.Modem
