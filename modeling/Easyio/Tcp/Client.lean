import Easyio.Runs.Partial
import Mathlib.Data.Int.Init

/-!
# TCP clients

The clients of `bsp/easyio_core/lwip_raw_api_tcp_template.c`.  A client goes through the
statuses `active_status` by its own calls and by the callbacks of lwIP, which come at any time
later.  The callbacks of the application stand at the end of the functions, so what they do is
what happens next; only `MY_TCP_Client_stop` and `MY_TCP_Client_pause` go on after them
(`Input.resume`).  `tcp_abort` calls `ClientConError`.

A callback for a request made before `MY_TCP_Client_pause` ends the pause
(`paused_iff`).  All clients count their waits for the name server in one variable
(`statuses_eq_iff`).
-/

namespace Easyio.Tcp

open Function List Prod Runs.Partial

/-- `active_status` -/
inductive Status where
  | pause | init | dnsStart | dnsFinish | connecting | connected
  | dnsErr | connectErr | disconnect | reconnectDelay
  deriving DecidableEq

/-- What remains to be done of a call when a callback of the application returns. -/
inductive Frame where
  | stop
  | pause

/-- What a client asks of lwIP, and the callbacks of its application. -/
inductive Act where
  | dnsGethostbyname | tcpNew | tcpConnect | tcpAbort | tcpClose | connected | disconn | connerr
  deriving DecidableEq

/-- `struct TcpClientCon`, with the calls under way and all it has done. -/
structure Client where
  status : Status
  connectType : Bool
  keepalive : Bool
  connectingCount : UInt8
  frames : List Frame
  acts : List Act

/-- What lwIP and the clock answer in `MY_TCP_Client_Routing`. -/
structure Answers where
  dns : ℤ
  tcpNew : Bool
  tcpConnect : ℤ
  second : ℕ
  deriving DecidableEq

/-- The calls and callbacks of a client. -/
inductive Input where
  | init (connectType keepalive : Bool)
  | start
  | stop
  | pause
  | routing (answers : Answers)
  | myFound (ok : Bool)
  | tcpCliConnected
  | clientConError
  | recvNull
  | resume
  deriving DecidableEq

/-- `dns_wait_count`, which is cleared when it gets to 10. -/
abbrev DnsWaitCount := Fin 10

namespace Client

variable (c : Client) (wait : DnsWaitCount)

/-- The status is set and something is done. -/
def move (status : Status) (acts : List Act) : Client := { c with status, acts := c.acts ++ acts }

/-- `MY_TCP_Client_stop`, up to the callback `connerr` -/
def stop (frames : List Frame) : Client :=
  { c.move .connectErr [.tcpAbort, .connerr] with frames := frames ++ c.frames }

/-- `TCP_DNS_FINISH` in `MY_TCP_Client_Routing`.  With `keepalive` the result of `tcp_new` is
used before it is tested. -/
def connect (a : Answers) : Option (Client × DnsWaitCount) :=
  let c := { c with connectingCount := c.connectingCount + 1 }
  if a.tcpNew then
    some (c.move (if a.tcpConnect = 0 then .connecting else .init) [.tcpNew, .tcpConnect], wait)
  else if c.keepalive then none
  else some (c.move .connectErr [.tcpNew, .connerr], wait)

/-- `MY_TCP_Client_Routing`, with `dns_wait_count`.  `ERR_INPROGRESS` is -5; `none` is
`rt_reset_system`. -/
def routing (a : Answers) : Option (Client × DnsWaitCount) :=
  match c.status with
  | .init =>
    if a.dns = 0 then some (c.move .dnsFinish [.dnsGethostbyname], 0)
    else some (c.move (if a.dns = -5 then .dnsStart else .init) [.dnsGethostbyname], wait)
  | .dnsStart =>
    if h : 10 ≤ wait.val + 1 then some (c.move .init [], 0)
    else some (c, ⟨wait + 1, Nat.lt_of_not_le h⟩)
  | .dnsFinish => c.connect wait a
  | .dnsErr | .connectErr | .disconnect =>
    if c.connectType = false then some (c, wait)
    else if 100 < c.connectingCount then none
    else some (c.move .reconnectDelay [], wait)
  | .reconnectDelay => some (if 0 < a.second then c.move .init [] else c, wait)
  | .connected => some ({ c with connectingCount := 0 }, wait)
  | .connecting | .pause => some (c, wait)

/-- The client and `dns_wait_count` after an input.  `MY_TCP_Client_Init` clears the client, and
0 is `TCP_PAUSE`. -/
def next : Input → Option (Client × DnsWaitCount)
  | .init connectType keepalive =>
    some (⟨.pause, connectType, keepalive, 0, c.frames, c.acts⟩, wait)
  | .start => some (c.move .init [], wait)
  | .stop => some (if c.status = .connected then c.stop [.stop] else c, wait)
  | .pause =>
    some (if c.status = .connected then c.stop [.stop, .pause] else c.move .pause [], wait)
  | .routing a => c.routing wait a
  | .myFound ok => some (if ok then c.move .dnsFinish [] else c.move .dnsErr [.connerr], wait)
  | .tcpCliConnected => some (c.move .connected [.connected], wait)
  | .clientConError => some (c.move .connectErr [.connerr], wait)
  | .recvNull => some (c.move .disconnect [.tcpClose, .disconn], wait)
  | .resume =>
    match c.frames with
    | [] => none
    | .stop :: frames => some ({ c.move .disconnect [.disconn] with frames }, wait)
    | .pause :: frames => some ({ c.move .pause [] with frames }, wait)

end Client

/-- The clients of `tcp_client_buffer`, and `dns_wait_count`. -/
structure System where
  client : ℕ → Client
  dnsWaitCount : DnsWaitCount

def System.step (s : System) (e : ℕ × Input) : Option System :=
  ((s.client e.1).next s.dnsWaitCount e.2).map fun (c, wait) => ⟨update s.client e.1 c, wait⟩

variable {s s' : System} {e : ℕ × Input} {i : ℕ}

theorem step_eq (hs : s.step e = some s') : ∃ c, s'.client = update s.client e.1 c ∧
    (s.client e.1).next s.dnsWaitCount e.2 = some (c, s'.dnsWaitCount) := by
  obtain ⟨⟨c, wait⟩, hnext, rfl⟩ := Option.map_eq_some_iff.mp hs
  exact ⟨c, rfl, hnext⟩

/-! ## Pausing -/

/-- What a client has asked of lwIP to connect. -/
def Client.issued (c : Client) : List Act :=
  c.acts.filter (· ∈ [.dnsGethostbyname, .tcpNew, .tcpConnect])

/-- The end of `MY_TCP_Client_pause`. -/
def System.paused (s : System) (i : ℕ) : System :=
  { s with client := update s.client i ((s.client i).move .pause []) }

/-- The client is started, a callback of lwIP sets its status, or the rest of a
`MY_TCP_Client_stop` does. -/
def Client.Woken (c : Client) : Input → Prop
  | .start | .myFound _ | .tcpCliConnected | .clientConError | .recvNull => True
  | .resume => c.frames.head? = some .stop
  | _ => False

theorem Client.next_paused {c c' : Client} {wait wait' : DnsWaitCount} {input : Input}
    (hpaused : c.status = .pause) (hnext : c.next wait input = some (c', wait')) :
    c'.status = .pause ∧ c'.issued = c.issued ↔ ¬c.Woken input := by
  cases input with
  | resume =>
    simp only [next] at hnext
    split at hnext <;> cases hnext <;> simp_all [Woken, issued, move]
  | routing a =>
    simp only [next, routing, hpaused] at hnext
    cases hnext
    simp [Woken, hpaused]
  | myFound ok =>
    cases hnext
    cases ok <;> simp [Woken, move]
  | _ =>
    cases hnext
    simp [Woken, issued, move, hpaused]

theorem paused_step (hpaused : (s.client i).status = .pause) (hs : s.step e = some s') :
    (s'.client i).status = .pause ∧ (s'.client i).issued = (s.client i).issued ↔
      (e.1 = i → ¬(s.client i).Woken e.2) := by
  obtain ⟨c, hclient, hnext⟩ := step_eq hs
  rw [hclient]
  by_cases he : e.1 = i
  · subst he
    rw [update_self, Client.next_paused hpaused hnext]
    exact (imp_iff_right rfl).symm
  · rw [update_of_ne (Ne.symm he)]
    exact iff_of_true ⟨hpaused, rfl⟩ fun h => absurd h he

/-- A client that has been paused stays so and asks nothing of lwIP, if and only if it is not
started and no callback sets its status. -/
theorem paused_iff (s : System) (i : ℕ) (events : List (ℕ × Input)) :
    Always System.step (fun t => (t.client i).status = .pause ∧
        (t.client i).issued = (s.client i).issued) (s.paused i) events ↔
      Meets System.step (fun t e => e.1 = i → ¬(t.client i).Woken e.2) (s.paused i) events := by
  refine always_iff_meets (fun _ h => h) ?_ ?_ ?_
  · intro t e t' ⟨hpaused, hissued⟩ hwoken ht
    rw [← hissued]
    exact (paused_step hpaused ht).mpr hwoken
  · intro t e t' ⟨hpaused, hissued⟩ ht h
    rw [← hissued] at h
    exact (paused_step hpaused ht).mp h
  · simp [System.paused, Client.move, Client.issued]

/-- No client has been set up. -/
def start : System := ⟨fun _ => ⟨.pause, false, false, 0, [], []⟩, 0⟩

/-- The name server answers after the pause, and the client connects. -/
theorem paused_connects :
    (run System.step start [(0, .init false false), (0, .start), (0, .routing ⟨-5, true, 0, 0⟩),
      (0, .pause), (0, .myFound true), (0, .routing ⟨-5, true, 0, 0⟩)]).map
        (fun s => ((s.client 0).status, (s.client 0).acts)) =
      some (.connecting, [.dnsGethostbyname, .tcpNew, .tcpConnect]) := by
  decide

/-! ## Other clients -/

/-- What clients do to the common counter. -/
inductive Use where
  | wait | answered

/-- A routing call waits in `TCP_DNS_START`; in `TCP_INIT` its query may be answered at once. -/
def Client.use (c : Client) : Input → Option Use
  | .routing a =>
    match c.status with
    | .dnsStart => some .wait
    | .init => if a.dns = 0 then some .answered else none
    | _ => none
  | _ => none

/-- The number of the waits of all clients since a query was last answered at once, `waits` before
the input. -/
def Client.waits (c : Client) (input : Input) (waits : ℕ) : ℕ :=
  match c.use input with
  | none => waits
  | some .wait => waits + 1
  | some .answered => 0

/-- Every tenth of these waits is given up. -/
def Client.gaveUp (c : Client) (input : Input) (waits : ℕ) : Option Bool :=
  match c.use input with
  | some .wait => some (waits % 10 = 9)
  | _ => none

/-- The status of the client `i` after each of its own inputs and, if the input is a wait, whether
it is the tenth of all clients. -/
def course (i waits : ℕ) : System → List (ℕ × Input) → List (Status × Option Bool)
  | _, [] => []
  | s, e :: rest =>
    match s.step e with
    | none => []
    | some s' =>
      let later := course i ((s.client e.1).waits e.2 waits) s' rest
      if e.1 = i then ((s'.client i).status, (s.client i).gaveUp e.2 waits) :: later else later

variable {c c' c₁ c₂ : Client} {w w' w₁ w₂ v₁ v₂ : DnsWaitCount} {input : Input} {n n' n₁ n₂ : ℕ}

/-- The counter is the number of the waits modulo 10. -/
theorem Client.next_waits (hn : n % 10 = w) (hnext : c.next w input = some (c', w')) :
    c.waits input n % 10 = w' := by
  cases input with
  | routing a =>
    simp only [next, routing] at hnext
    cases hstatus : c.status <;> simp only [hstatus] at hnext <;>
      simp only [waits, use, hstatus] <;> grind [connect]
  | resume =>
    simp only [next] at hnext
    split at hnext <;> cases hnext <;> exact hn
  | _ =>
    cases hnext
    exact hn

/-- Only through its wait does the counter have an effect on a client. -/
theorem Client.next_wait (h₁ : c.next w₁ input = some (c₁, v₁))
    (h₂ : c.next w₂ input = some (c₂, v₂)) (hn₁ : n₁ % 10 = w₁) (hn₂ : n₂ % 10 = w₂) :
    c₁.status = c₂.status ∧ c₁ = c₂ ∧ c.gaveUp input n₁ = c.gaveUp input n₂ ∨
      c₁.status ≠ c₂.status ∧ c.gaveUp input n₁ ≠ c.gaveUp input n₂ := by
  cases input with
  | routing a =>
    simp only [next, routing] at h₁ h₂
    cases hstatus : c.status <;> simp only [hstatus] at h₁ h₂ <;> simp only [gaveUp, use, hstatus]
    case dnsStart =>
      have htenth (w : DnsWaitCount) : w.val = 9 ↔ 10 ≤ w.val + 1 := by omega
      rw [hn₁, hn₂]
      by_cases hw₁ : 10 ≤ w₁.val + 1 <;> by_cases hw₂ : 10 ≤ w₂.val + 1 <;>
        simp only [hw₁, hw₂] at h₁ h₂ <;> cases h₁ <;> cases h₂ <;>
        simp [htenth, move, hstatus, hw₁, hw₂]
    all_goals grind [connect]
  | resume =>
    simp only [next] at h₁ h₂
    split at h₁ <;> grind [gaveUp, use]
  | _ =>
    cases h₁
    cases h₂
    exact .inl ⟨rfl, rfl, rfl⟩

variable {t t' : System} {events events' : List (ℕ × Input)}

theorem course_cases (hn : n % 10 = s.dnsWaitCount) (hrun : run System.step s events = some t) :
    events.filter (·.1 = i) = [] ∧ course i n s events = [] ∨
      ∃ (n₁ : ℕ) (s₁ : System) (input : Input) (s₂ : System) (rest : List (ℕ × Input)),
        n₁ % 10 = s₁.dnsWaitCount ∧ s₁.client i = s.client i ∧ s₁.step (i, input) = some s₂ ∧
        run System.step s₂ rest = some t ∧
        events.filter (·.1 = i) = (i, input) :: rest.filter (·.1 = i) ∧
        course i n s events = ((s₂.client i).status, (s.client i).gaveUp input n₁) ::
          course i ((s.client i).waits input n₁) s₂ rest := by
  induction events generalizing n s with
  | nil => exact .inl ⟨rfl, rfl⟩
  | cons e rest ih =>
    obtain ⟨s₁, hs, hrun⟩ := run_cons hrun
    by_cases he : e.1 = i
    · subst he
      exact .inr ⟨n, s, e.2, s₁, rest, hn, rfl, hs, hrun, by simp, by simp [course, hs]⟩
    · obtain ⟨c, hclient, hnext⟩ := step_eq hs
      have hsame : s₁.client i = s.client i := by rw [hclient, update_of_ne (Ne.symm he)]
      have hfilter : (e :: rest).filter (·.1 = i) = rest.filter (·.1 = i) := by simp [he]
      simpa only [course, hs, if_neg he, hfilter, hsame] using
        ih (Client.next_waits hn hnext) hrun

theorem course_eq_iff (hclient : s'.client i = s.client i)
    (hown : events'.filter (·.1 = i) = events.filter (·.1 = i))
    (hrun : run System.step s events = some t) (hrun' : run System.step s' events' = some t')
    (hn : n % 10 = s.dnsWaitCount) (hn' : n' % 10 = s'.dnsWaitCount) :
    (course i n' s' events').map fst = (course i n s events).map fst ↔
      (course i n' s' events').map snd = (course i n s events).map snd := by
  induction hlen : (events.filter (·.1 = i)).length generalizing n n' s s' events events' with
  | zero =>
    have h := course_cases (i := i) hn hrun
    have h' := course_cases (i := i) hn' hrun'
    grind
  | succ k ih =>
    obtain ⟨hnil, -⟩ | ⟨n₁, s₁, input, s₂, rest, hn₁, hs₁, hs₂, hrest, hfilter, hcourse⟩ :=
      course_cases (i := i) hn hrun
    · rw [hnil] at hlen
      cases hlen
    obtain ⟨hnil, -⟩ | ⟨n₁', s₁', input', s₂', rest', hn₁', hs₁', hs₂', hrest', hfilter',
      hcourse'⟩ := course_cases (i := i) hn' hrun'
    · rw [hown, hfilter] at hnil
      cases hnil
    rw [hown, hfilter] at hfilter'
    obtain ⟨hinput, hown⟩ := cons.inj hfilter'
    obtain rfl := (mk.inj hinput).2
    obtain ⟨c, hc, hnext⟩ := step_eq hs₂
    obtain ⟨c', hc', hnext'⟩ := step_eq hs₂'
    rw [hs₁] at hnext
    rw [hs₁', hclient] at hnext'
    simp only [hcourse, hcourse', hc, hc', update_self, hclient, map_cons, cons.injEq]
    obtain ⟨-, rfl, hgave⟩ | ⟨hstatus, hgave⟩ := Client.next_wait hnext hnext' hn₁ hn₁'
    · simp only [hgave, true_and]
      refine ih ?_ hown.symm hrest hrest' (Client.next_waits hn₁ hnext)
        (Client.next_waits hn₁' hnext') ?_
      · rw [hc, hc', update_self, update_self]
      · simpa [hfilter] using hlen
    · exact iff_of_false (fun h => hstatus h.1.symm) fun h => hgave h.1.symm

/-- Two runs with the same calls and callbacks of a client, whatever the other clients do: the
client goes through the same statuses, if and only if the same of its waits are tenth ones of all
clients since a query was last answered at once. -/
theorem statuses_eq_iff (hclient : s'.client i = s.client i)
    (hown : events'.filter (·.1 = i) = events.filter (·.1 = i))
    (hrun : run System.step s events = some t) (hrun' : run System.step s' events' = some t') :
    (course i s'.dnsWaitCount s' events').map fst = (course i s.dnsWaitCount s events).map fst ↔
      (course i s'.dnsWaitCount s' events').map snd =
        (course i s.dnsWaitCount s events).map snd :=
  course_eq_iff hclient hown hrun hrun' (Nat.mod_eq_of_lt s.dnsWaitCount.2)
    (Nat.mod_eq_of_lt s'.dnsWaitCount.2)

/-- A client that waits for the name server. -/
def waiting (i calls : ℕ) : List (ℕ × Input) :=
  (i, .init false false) :: (i, .start) :: .replicate calls (i, .routing ⟨-5, false, 0, 0⟩)

theorem statuses_eq_iff_waiting : (course 0 0 start (waiting 1 2 ++ waiting 0 2)).map fst =
        (course 0 0 start (waiting 0 2)).map fst ↔
      (course 0 0 start (waiting 1 2 ++ waiting 0 2)).map snd =
        (course 0 0 start (waiting 0 2)).map snd :=
  @statuses_eq_iff start start 0 _ _ (waiting 0 2) _ rfl (by decide) rfl rfl

/-- After nine waits of another client the first of this one is its last. -/
theorem statuses_differ :
    course 0 0 start (waiting 0 2) =
        [(.pause, none), (.init, none), (.dnsStart, none), (.dnsStart, some false)] ∧
      course 0 0 start (waiting 1 10 ++ waiting 0 2) =
        [(.pause, none), (.init, none), (.dnsStart, none), (.init, some true)] := by
  decide

end Easyio.Tcp
