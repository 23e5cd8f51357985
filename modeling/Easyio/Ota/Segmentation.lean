import Easyio.Ota.Http

/-!
# A response cut into segments

A server's response reaches `recv` in segments, cut anywhere.  `recv` looks for
`Content-Length` and for the blank line in one segment at a time and keeps
nothing of a segment in which the blank line is missing.  So the body comes out
right only for some ways of cutting: `segmentation_iff` says which.

The blank line has to arrive in one segment, that segment has to give the right
content length on its own, and no earlier segment may give the length zero.  A
cut between the `Content-Length` header and the blank line is enough to break
the download (`cut_after_content_length`).
-/

namespace Easyio.Ota

open CString List Nat Segment UInt32

/-! ## Well-formed responses -/

def crlf : List UInt8 := [13, 10]

/-- A response: its status line, its header lines and its body. -/
structure Response where
  statusLine : List UInt8
  headers : List (List UInt8)
  body : List UInt8

def Response.head (r : Response) : List UInt8 :=
  (r.statusLine :: r.headers).flatMap (· ++ crlf) ++ crlf

def Response.bytes (r : Response) : List UInt8 := r.head ++ r.body

/-- A line has characters, and neither zero bytes nor line ends among them. -/
def IsLine (line : List UInt8) : Prop := line ≠ [] ∧ ∀ b ∈ line, b ≠ 0 ∧ b ≠ 13 ∧ b ≠ 10

/-- A header line that gives the content length `n`.  The case of the name does not
matter, and blanks and tabs may surround the value. -/
def IsContentLength (line : List UInt8) (n : ℕ) : Prop :=
  ∃ name space digits space', line = name ++ ascii ":" ++ space ++ digits ++ space' ∧
    name.map toLower = ascii "content-length" ∧
    (∀ b ∈ space ++ space', b = 32 ∨ b = 9) ∧
    digits ≠ [] ∧ (∀ b ∈ digits, isDigit b) ∧ digitsValue digits = n

/-- A well-formed response with `n` body bytes, a length that fits an `int`. -/
structure Response.WellFormed (r : Response) (n : ℕ) : Prop where
  lines : ∀ line ∈ r.statusLine :: r.headers, IsLine line
  contentLength : ∃ line ∈ r.headers, IsContentLength line n
  pos : 0 < n
  int : n < 2 ^ 31
  length_body : r.body.length = n

/-- `segs` is a way of cutting `bytes` into non-empty segments. -/
structure IsCut (segs : List Segment) (bytes : List UInt8) : Prop where
  nonempty : ∀ seg ∈ segs, seg.data ≠ []
  flatten : segs.flatMap data = bytes

/-- The body arrives unharmed, and the download is finished exactly when all of the
segments have arrived. -/
def BodyReceived (h : Http) (segs : List Segment) (body : List UInt8) : Prop :=
  (recvAll h segs).2.flatten = body ∧
    ∀ arrived, arrived <+: segs →
      ((recvAll h arrived).1.status = .downloadFinish ↔ arrived = segs)

/-- The header line gives the length `n`: `Content-Length` is in the segment, in this
spelling, and the number begins two characters behind it. -/
def GivesLength (seg : Segment) (n : ℕ) : Prop :=
  ∃ p1, strstr (ascii "Content-Length") (cString seg.data) = some p1 ∧
    toUnsigned (atoi (seg.memory.drop (p1 + 16))) = UInt32.ofNat n

/-- A segment after which `recv` waits for the next one. -/
def Waits (seg : Segment) : Prop :=
  ¬ GivesLength seg 0 ∧ strstr blankLine (cString seg.data) = none

/-- The first segment with a blank line has the one that ends the head, and its header
line gives the right content length; `recv` waits for it. -/
def HeadIntact (headLength n : ℕ) (segs : List Segment) : Prop :=
  ∃ before seg after pos, segs = before ++ seg :: after ∧ (∀ s ∈ before, Waits s) ∧
    strstr blankLine (cString seg.data) = some pos ∧
    (before.flatMap data).length + (pos + 4) = headLength ∧ GivesLength seg n

theorem givesLength_iff {seg : Segment} {n : ℕ} (hn : n < 2 ^ 31) :
    GivesLength seg n ↔ toUnsigned (httpGetContentLength seg) = UInt32.ofNat n := by
  unfold GivesLength httpGetContentLength
  cases strstr (ascii "Content-Length") (cString seg.data) with
  | none =>
    refine iff_of_false nofun fun heq => ?_
    have hminus : (toUnsigned (-1)).toNat = 2 ^ 32 - 1 := by decide
    have hvalue : (toUnsigned (-1)).toNat = n :=
      (congrArg UInt32.toNat heq).trans (UInt32.toNat_ofNat_of_lt' (show n < 2 ^ 32 by omega))
    omega
  | some p1 => simp

/-- Without the blank, or in another spelling, the length is misread. -/
example : httpGetContentLength ⟨ascii "Content-Length:12", []⟩ = 2 ∧
    httpGetContentLength ⟨ascii "content-length: 12", []⟩ = -1 := by decide +kernel

/-! ## `recv` before the blank line -/

section Started

variable {h : Http} {seg : Segment} {segs : List Segment}

theorem recv_waits (hs : h.status = .started) (hw : Waits seg) :
    recv h seg = ({ h with contentLength := toUnsigned (httpGetContentLength seg) }, none) := by
  have hpos : 0 < toUnsigned (httpGetContentLength seg) :=
    UInt32.pos_iff_ne_zero.mpr (mt (givesLength_iff (by decide)).mpr hw.1)
  rw [recv, hs]
  simp only [if_pos hpos, hw.2]

theorem recvAll_waits (hs : h.status = .started) (hw : ∀ seg ∈ segs, Waits seg) :
    (recvAll h segs).1.status = .started ∧ (recvAll h segs).2 = [] := by
  induction segs generalizing h with
  | nil => exact ⟨hs, rfl⟩
  | cons seg rest ih =>
    have hstep := recv_waits hs (hw seg mem_cons_self)
    rw [recvAll, hstep]
    exact ih hs
      fun s hmem => hw s (mem_cons_of_mem _ hmem)

theorem recvAll_error (hs : h.status = .error) : (recvAll h segs).1.status = .error := by
  induction segs generalizing h with
  | nil => exact hs
  | cons seg rest ih =>
    have hstep : recv h seg = (h, none) := by rw [recv, hs]
    rw [recvAll, hstep]
    exact ih hs

theorem recv_blank {pos : ℕ} (hs : h.status = .started)
    (hpos : 0 < toUnsigned (httpGetContentLength seg))
    (hblank : strstr blankLine (cString seg.data) = some pos) :
    recv h seg = (afterBody ⟨h.status, toUnsigned (httpGetContentLength seg),
      ofNat (seg.data.drop (pos + 4)).length⟩, some (seg.data.drop (pos + 4))) := by
  rw [recv, hs]
  simp only [if_pos hpos, hblank]

theorem exists_blank (hs : h.status = .started)
    (hfinish : (recvAll h segs).1.status = .downloadFinish) :
    ∃ before seg after pos, segs = before ++ seg :: after ∧ (∀ s ∈ before, Waits s) ∧
      strstr blankLine (cString seg.data) = some pos ∧
      0 < toUnsigned (httpGetContentLength seg) := by
  induction segs generalizing h with
  | nil =>
    rw [recvAll, hs] at hfinish
    cases hfinish
  | cons seg rest ih =>
    by_cases hzero : toUnsigned (httpGetContentLength seg) = 0
    · -- length zero: the client gives up
      have hstep : (recv h seg).1.status = .error := by
        rw [recv, hs]
        simp [hzero]
      rw [recvAll, recvAll_error hstep] at hfinish
      cases hfinish
    · rcases hblank : strstr blankLine (cString seg.data) with - | pos
      · have hw : Waits seg := ⟨mt (givesLength_iff (by decide)).mp hzero, hblank⟩
        rw [recvAll, recv_waits hs hw] at hfinish
        obtain ⟨before, s, after, pos, hrest, hbefore, hpos⟩ :=
          ih (h := { h with contentLength := toUnsigned (httpGetContentLength seg) }) hs hfinish
        refine ⟨seg :: before, s, after, pos, by rw [hrest, cons_append], ?_, hpos⟩
        rintro t (_ | ⟨_, ht⟩)
        · exact hw
        · exact hbefore t ht
      · exact ⟨[], seg, rest, pos, rfl, by simp, hblank, UInt32.pos_iff_ne_zero.mpr hzero⟩

end Started

/-! ## `recv` after the blank line -/

section Downloading

variable {h : Http} {segs : List Segment}

def byteCount (segs : List Segment) : ℕ := (segs.flatMap data).length

@[simp] theorem byteCount_cons (seg : Segment) (rest : List Segment) :
    byteCount (seg :: rest) = seg.data.length + byteCount rest := by
  simp [byteCount]

theorem status_afterBody_eq_finish_iff :
    (afterBody h).status = .downloadFinish ↔ h.downloadSize = h.contentLength := by
  rw [afterBody]
  split
  · next hcount => exact iff_of_true rfl hcount
  · next hcount => exact iff_of_false HttpTcpStatus.noConfusion hcount

theorem status_afterBody_of_ne_finish (hopen : (afterBody h).status ≠ .downloadFinish) :
    (afterBody h).status = .downloading := by
  exact if_neg (status_afterBody_eq_finish_iff.not.mp hopen)

/-- As long as the count does not reach the content length too early, every segment
is handed over whole. -/
theorem recvAll_downloading (hs : h.status = .downloading)
    (hearly : ∀ arrived, arrived <+: segs → arrived ≠ [] → arrived ≠ segs →
      h.downloadSize + ofNat (byteCount arrived) ≠ h.contentLength) :
    recvAll h segs = (if segs = [] then h else
      afterBody { h with downloadSize := h.downloadSize + ofNat (byteCount segs) },
      segs.map data) := by
  induction segs generalizing h with
  | nil => rfl
  | cons seg rest ih =>
    have hstep : recv h seg = (afterBody
        { h with downloadSize := h.downloadSize + ofNat seg.data.length },
        some seg.data) := by
      rw [recv, hs]
    rw [recvAll, hstep]
    rcases eq_or_ne rest [] with rfl | hne
    · simp [recvAll, byteCount]
    · -- one segment alone does not reach the content length
      have hfirst := hearly [seg] (by simp) (by simp) (by simpa using hne.symm)
      have hcount : byteCount [seg] = seg.data.length := by simp [byteCount]
      rw [hcount] at hfirst
      have hnext : afterBody { h with
          downloadSize := h.downloadSize + UInt32.ofNat seg.data.length } =
          { h with downloadSize := h.downloadSize + UInt32.ofNat seg.data.length } := by
        rw [afterBody, if_neg hfirst, hs]
      have hrest := ih (h := { h with
          downloadSize := h.downloadSize + UInt32.ofNat seg.data.length }) hs (by
        intro arrived hpre hnil hproper
        have := hearly (seg :: arrived) (cons_prefix_cons.mpr ⟨rfl, hpre⟩) (by simp)
          (by simpa using hproper)
        rwa [byteCount_cons, UInt32.ofNat_add, ← UInt32.add_assoc] at this)
      rw [hnext, hrest]
      simp [hne, UInt32.add_assoc]

theorem count_ne_of_not_finished (hs : h.status = .downloading)
    (hopen : ∀ arrived, arrived <+: segs → arrived ≠ segs →
      (recvAll h arrived).1.status ≠ .downloadFinish) (k : ℕ) :
    ∀ arrived, arrived.length = k → arrived <+: segs → arrived ≠ [] → arrived ≠ segs →
      h.downloadSize + UInt32.ofNat (byteCount arrived) ≠ h.contentLength := by
  -- the first prefix that reaches it would be finished
  induction k using Nat.strong_induction_on with
  | _ k ih =>
    intro arrived hlen hpre hnil hproper hreach
    refine hopen arrived hpre hproper ?_
    rw [recvAll_downloading hs fun earlier hearlier hne hlt => ?_]
    · rw [if_neg hnil, afterBody, if_pos hreach]
    · have hshort : earlier.length < arrived.length :=
        lt_of_le_of_ne hearlier.length_le fun heq => hlt (hearlier.eq_of_length heq)
      refine ih earlier.length (by omega) earlier rfl (hearlier.trans hpre) hne ?_
      rintro rfl
      exact hlt (hearlier.eq_of_length (le_antisymm hearlier.length_le hpre.length_le))

end Downloading

/-! ## Which cuts are harmless -/

section Cut

variable {h : Http} {segs before after : List Segment} {seg : Segment} {pos n k : ℕ} {r : Response}

theorem byteCount_eq_zero (hne : ∀ seg ∈ segs, seg.data ≠ []) (h0 : byteCount segs = 0) :
    segs = [] := by
  cases segs with
  | nil => rfl
  | cons seg rest =>
    have hpos := length_pos_iff.mpr (hne seg mem_cons_self)
    rw [byteCount_cons] at h0
    omega

theorem byteCount_lt {arrived : List Segment} (hne : ∀ seg ∈ segs, seg.data ≠ [])
    (hpre : arrived <+: segs) (hproper : arrived ≠ segs) :
    byteCount arrived < byteCount segs := by
  obtain ⟨rest, rfl⟩ := hpre
  have hrest : byteCount rest ≠ 0 := fun h0 => hproper <| by
    rw [byteCount_eq_zero (fun seg hmem => hne seg (mem_append_right _ hmem)) h0, append_nil]
  have hsum : byteCount (arrived ++ rest) = byteCount arrived + byteCount rest := by
    simp [byteCount]
  omega

theorem length_drop_blank (hblank : strstr blankLine (cString seg.data) = some pos) :
    pos + 4 + (seg.data.drop (pos + 4)).length = seg.data.length := by
  have hle := strstr_add_length_le hblank (by simp [blankLine])
  have hlen := length_cString_le seg.data
  have hfour : blankLine.length = 4 := rfl
  rw [length_drop]
  omega

/-- The run up to the blank line and over the segment that has it. -/
theorem recvAll_blank (hs : h.status = .started) (hw : ∀ s ∈ before, Waits s)
    (hblank : strstr blankLine (cString seg.data) = some pos)
    (hpos : 0 < toUnsigned (httpGetContentLength seg)) :
    ∃ h', h' = afterBody ⟨.started, toUnsigned (httpGetContentLength seg),
        ofNat (seg.data.drop (pos + 4)).length⟩ ∧
      ∀ rest, recvAll h (before ++ seg :: rest) =
        ((recvAll h' rest).1, seg.data.drop (pos + 4) :: (recvAll h' rest).2) := by
  obtain ⟨hstarted, hnone⟩ := recvAll_waits hs hw
  refine ⟨_, rfl, ?_⟩
  intro rest
  rw [recvAll_append, hnone, recvAll, recv_blank hstarted hpos hblank]
  rfl

theorem body_of_cut {head body : List UInt8}
    (hcut : (before ++ seg :: after).flatMap data = head ++ body)
    (hblank : strstr blankLine (cString seg.data) = some pos)
    (hlen : byteCount before + (pos + 4) = head.length) :
    seg.data.drop (pos + 4) ++ after.flatMap data = body := by
  have hsplit : (before.flatMap data ++ seg.data.take (pos + 4)) ++
      (seg.data.drop (pos + 4) ++ after.flatMap data) = head ++ body := by
    calc before.flatMap data ++ seg.data.take (pos + 4) ++
            (seg.data.drop (pos + 4) ++ after.flatMap data)
          = before.flatMap data ++
              (seg.data.take (pos + 4) ++ seg.data.drop (pos + 4) ++
                after.flatMap data) := by
            simp only [append_assoc]
      _ = (before ++ seg :: after).flatMap data := by
            rw [take_append_drop, flatMap_append, flatMap_cons]
      _ = head ++ body := hcut
  refine (append_inj hsplit ?_).2
  have hdrop := length_drop_blank hblank
  have htake : (seg.data.take (pos + 4)).length = pos + 4 := by
    rw [length_take]
    omega
  rw [length_append, htake]
  exact hlen

theorem ofNat_add_eq_iff {m : ℕ} (hle : k + m ≤ n) (hint : n < 2 ^ 31) :
    UInt32.ofNat k + UInt32.ofNat m = UInt32.ofNat n ↔ k + m = n := by
  rw [← UInt32.ofNat_add, ← UInt32.toNat_inj, UInt32.toNat_ofNat', UInt32.toNat_ofNat',
    mod_eq_of_lt (by omega), mod_eq_of_lt (by omega)]

/-- After the blank line: if `n` bytes are to come in all, every segment is handed over
and the last one finishes the download. -/
theorem recvAll_body {h' : Http} (hne : ∀ seg ∈ after, seg.data ≠ [])
    (hsum : k + byteCount after = n) (hint : n < 2 ^ 31)
    (hh : h' = afterBody ⟨.started, ofNat n, ofNat k⟩) :
    (recvAll h' after).2 = after.map data ∧
      ∀ arrived, arrived <+: after →
        ((recvAll h' arrived).1.status = .downloadFinish ↔ arrived = after) := by
  rcases eq_or_ne k n with rfl | hk
  · -- the first segment had the whole body
    obtain rfl := byteCount_eq_zero hne (by omega)
    refine ⟨rfl, ?_⟩
    intro arrived hpre
    obtain rfl := prefix_nil.mp hpre
    simp [recvAll, hh, afterBody]
  · have hopen : h' = ⟨.downloading, ofNat n, ofNat k⟩ := by
      have hneq := (ofNat_add_eq_iff (k := k) (m := 0) (by omega) hint).not.mpr (by omega)
      rw [show UInt32.ofNat 0 = 0 from rfl, UInt32.add_zero] at hneq
      rw [hh, afterBody, if_neg hneq]
    have hrun : ∀ arrived, arrived <+: after → recvAll h' arrived = (if arrived = [] then h' else
        afterBody { h' with downloadSize := h'.downloadSize + ofNat (byteCount arrived) },
        arrived.map data) := by
      intro arrived hpre
      refine recvAll_downloading (by rw [hopen]) ?_
      intro earlier hearlier _ hproper
      have hle := byteCount_lt hne (hearlier.trans hpre) fun heq => hproper <|
        hearlier.eq_of_length (le_antisymm hearlier.length_le (heq ▸ hpre.length_le))
      rw [hopen]
      exact (ofNat_add_eq_iff (by omega) hint).not.mpr (by omega)
    refine ⟨by rw [hrun after prefix_rfl], ?_⟩
    intro arrived hpre
    rw [hrun arrived hpre]
    constructor
    · intro hfinish
      by_contra hproper
      have hle := byteCount_lt hne hpre hproper
      have hneq := (ofNat_add_eq_iff (by omega) hint).not.mpr
        (show ¬ k + byteCount arrived = n by omega)
      split at hfinish <;> simp [hopen, afterBody, hneq] at hfinish
    · rintro rfl
      have hnil : arrived ≠ [] := by
        rintro rfl
        simp [byteCount] at hsum
        omega
      have heq := (ofNat_add_eq_iff (by omega) hint).mpr hsum
      simp [hnil, hopen, afterBody, heq]

section

variable (hwf : r.WellFormed n) (hcut : IsCut segs r.bytes) (hs : h.status = .started)
include hwf hcut hs

/-- A segment that completes the head and knows the length is enough. -/
theorem bodyReceived_of_headIntact (hhead : HeadIntact r.head.length n segs) :
    BodyReceived h segs r.body := by
  obtain ⟨before, seg, after, pos, rfl, hw, hblank, hlen, hgives⟩ := hhead
  have hn := (givesLength_iff hwf.int).mp hgives
  have hbody := body_of_cut hcut.flatten hblank hlen
  have hcount : (seg.data.drop (pos + 4)).length + byteCount after = n := by
    rw [← hwf.length_body, ← hbody, length_append]
    rfl
  have hpos : 0 < toUnsigned (httpGetContentLength seg) := by
    rw [hn, UInt32.pos_iff_ne_zero, Ne, ← UInt32.toNat_inj, UInt32.toNat_ofNat',
      mod_eq_of_lt (by have := hwf.int; omega)]
    exact Nat.pos_iff_ne_zero.mp hwf.pos
  have hafter : ∀ s ∈ after, s.data ≠ [] := fun s hmem => hcut.nonempty s (by simp [hmem])
  obtain ⟨h', hh, hrun⟩ := recvAll_blank hs hw hblank hpos
  rw [hn] at hh
  obtain ⟨hbuffers, hfinish⟩ := recvAll_body hafter hcount hwf.int hh
  refine ⟨?_, ?_⟩
  · calc (recvAll h (before ++ seg :: after)).2.flatten
          = (seg.data.drop (pos + 4) :: after.map data).flatten := by
            rw [hrun after, hbuffers]
      _ = seg.data.drop (pos + 4) ++ after.flatMap data := by
            rw [flatten_cons, flatMap_def]
      _ = r.body := hbody
  · intro arrived hpre
    rcases prefix_or_prefix_of_prefix hpre (prefix_append before (seg :: after)) with
      hearly | ⟨rest, rfl⟩
    · -- the head is not complete yet
      have hstarted := (recvAll_waits hs fun s hmem => hw s (hearly.subset hmem)).1
      have hlong := hearly.length_le
      constructor
      · intro hf
        rw [hstarted] at hf
        cases hf
      · rintro rfl
        simp only [length_append, length_cons] at hlong
        omega
    · have htail := (prefix_append_right_inj before).mp hpre
      cases rest with
      | nil =>
        rw [append_nil, (recvAll_waits hs hw).1]
        simp
      | cons s rest =>
        obtain ⟨rfl, hrest⟩ := cons_prefix_cons.mp htail
        rw [hrun rest, hfinish rest hrest]
        simp

/-- If the body is received, some segment has completed the head with the right length. -/
theorem headIntact_of_bodyReceived (hbody : BodyReceived h segs r.body) :
    HeadIntact r.head.length n segs := by
  obtain ⟨hflat, hfinish⟩ := hbody
  have hend := (hfinish segs prefix_rfl).mpr rfl
  obtain ⟨before, seg, after, pos, rfl, hw, hblank, hpos⟩ := exists_blank hs hend
  obtain ⟨h', hh, hrun⟩ := recvAll_blank hs hw hblank hpos
  have htotal : byteCount before + (seg.data.length + byteCount after) =
      r.head.length + n := by
    have hlen := congrArg List.length hcut.flatten
    simpa [byteCount, Response.bytes, hwf.length_body] using hlen
  have hdrop := length_drop_blank hblank
  rw [hrun after] at hend hflat
  -- the count at the end is the number of bytes handed over, which is `n`
  suffices hend' : (seg.data.drop (pos + 4)).length + byteCount after = n ∧
      toUnsigned (httpGetContentLength seg) = UInt32.ofNat n by
    obtain ⟨hcount, hn⟩ := hend'
    refine ⟨before, seg, after, pos, rfl, hw, hblank, ?_, (givesLength_iff hwf.int).mpr hn⟩
    change byteCount before + (pos + 4) = r.head.length
    omega
  rcases eq_or_ne after [] with rfl | hne
  · have hcount : (seg.data.drop (pos + 4)).length = n := by
      rw [← hwf.length_body, ← hflat]
      simp [recvAll]
    refine ⟨by simpa [byteCount] using hcount, ?_⟩
    rw [recvAll, hh, status_afterBody_eq_finish_iff] at hend
    rw [← hcount]
    exact hend.symm
  · have hopen : ∀ arrived, arrived <+: after → arrived ≠ after →
        (recvAll h' arrived).1.status ≠ .downloadFinish := by
      intro arrived hpre hproper hf
      have heq := (hfinish (before ++ seg :: arrived) (by
        rw [prefix_append_right_inj, cons_prefix_cons]
        exact ⟨rfl, hpre⟩)).mp (by rw [hrun arrived, hf])
      exact hproper (by simpa using heq)
    have hdown : h'.status = .downloading := by
      have hstart := hopen [] (by simp) hne.symm
      rw [hh] at hstart
      rw [hh]
      exact status_afterBody_of_ne_finish hstart
    rw [recvAll_downloading hdown fun arrived => count_ne_of_not_finished hdown hopen _ arrived rfl]
      at hend hflat
    have hcount : (seg.data.drop (pos + 4)).length + byteCount after = n := by
      rw [← hwf.length_body, ← hflat, byteCount, flatMap_def, flatten_cons, length_append]
    refine ⟨hcount, ?_⟩
    rw [if_neg hne, status_afterBody_eq_finish_iff, hh] at hend
    rw [← hcount, ofNat_add]
    exact hend.symm

end

end Cut

/-- Whatever the response and however it is cut: the body is handed over unharmed and
the download finished with its last byte exactly if the head arrives intact. -/
theorem segmentation_iff {r : Response} {n : ℕ} {segs : List Segment} {h : Http}
    (hwf : r.WellFormed n) (hcut : IsCut segs r.bytes) (hs : h.status = .started) :
    BodyReceived h segs r.body ↔ HeadIntact r.head.length n segs :=
  ⟨headIntact_of_bodyReceived hwf hcut hs, bodyReceived_of_headIntact hwf hcut hs⟩

/-- A response with the body `A`. -/
def shortResponse : Response where
  statusLine := ascii "HTTP/1.1 200 OK"
  headers := [ascii "Content-Length: 1"]
  body := ascii "A"

theorem shortResponse_wellFormed : shortResponse.WellFormed 1 where
  lines := by
    unfold IsLine
    decide +kernel
  contentLength := ⟨ascii "Content-Length: 1", mem_singleton_self _,
    ascii "Content-Length", ascii " ", ascii "1", [], by decide +kernel⟩
  pos := by decide
  int := by decide
  length_body := rfl

/-- A client that has sent its request. -/
def waitingHttp : Http := ⟨.started, 0, 0⟩

/-- Cut in front of the `Content-Length` header and behind the blank line, the response is
received. -/
theorem segmentation_iff_three_segments : let segs : List Segment :=
      [⟨ascii "HTTP/1.1 200 OK" ++ crlf, []⟩, ⟨ascii "Content-Length: 1" ++ crlf ++ crlf, []⟩,
        ⟨ascii "A", []⟩]
    BodyReceived waitingHttp segs shortResponse.body := by
  refine (segmentation_iff shortResponse_wellFormed ⟨by decide, by decide⟩ rfl).mpr
    ⟨[⟨ascii "HTTP/1.1 200 OK" ++ crlf, []⟩], _, _, 17, rfl, fun s hs => ?_, by decide, by decide,
      0, by decide, by decide⟩
  obtain rfl := mem_singleton.mp hs
  exact ⟨mt (givesLength_iff (by decide)).mp (by decide), by decide⟩

/-- Cut right behind the `Content-Length` header, the same response is not: the second
segment has no content length, `-1` is taken for it, and the download never ends. -/
theorem cut_after_content_length : let segs : List Segment :=
      [⟨ascii "HTTP/1.1 200 OK" ++ crlf ++ ascii "Content-Length: 1", []⟩,
        ⟨crlf ++ crlf ++ ascii "A", []⟩]
    shortResponse.WellFormed 1 ∧ IsCut segs shortResponse.bytes ∧
      (recvAll waitingHttp segs).1 = ⟨.downloading, 0xFFFFFFFF, 1⟩ ∧
      ¬ BodyReceived waitingHttp segs shortResponse.body := by
  have hrun : (recvAll waitingHttp
      [⟨ascii "HTTP/1.1 200 OK" ++ crlf ++ ascii "Content-Length: 1", []⟩,
        ⟨crlf ++ crlf ++ ascii "A", []⟩]).1 = ⟨.downloading, 0xFFFFFFFF, 1⟩ := by
    decide
  refine ⟨shortResponse_wellFormed, ⟨by decide, by decide⟩, hrun, ?_⟩
  intro hbody
  have hend := (hbody.2 _ prefix_rfl).mpr rfl
  cases hend

end Easyio.Ota
