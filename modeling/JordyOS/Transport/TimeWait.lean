import JordyOS.Transport.Native

/-!
# Local ports and TIME-WAIT

Over a whole boot no local port is used twice, a completed transfer leaves a record in the TIME-WAIT table
that stays until it expires, and what is sent to an earlier connection never reaches the state machine of a
later one.
-/

namespace JordyOS.Transport

open Machine Net

variable {ρ : Type} (core : LarpCore ρ) (netMac : Memory)

/-! ## Ports -/

/-- The local ports of the connections so far. -/
structure Ports (ports : List UInt16) (s : Native ρ) : Prop where
  high : s.nextPort.toNat ≤ 65536
  used : ∀ p ∈ ports, p.toNat < s.nextPort.toNat
  nodup : ports.Nodup
  available : ∀ wait port size deadline, s.foreground = .resolving wait port size deadline →
    s.nextPort.toNat ≤ 65535
  running : s.running = true → ∃ wait localPort remote earlier,
    s.foreground = .transferring wait localPort remote ∧ ports = earlier ++ [localPort] ∧
      Attached s.connection localPort

section
variable {s d : Native ρ} {ports : List UInt16} {h : Happening}

theorem opened_self (f : Foreground) : opened f f = none := by
  cases f <;> rfl

theorem Ports.same (hports : Ports ports s) (hsame : Same s d) : Ports ports d where
  high := hsame.nextPort ▸ hports.high
  used := hsame.nextPort ▸ hports.used
  nodup := hports.nodup
  available := fun wait port size deadline hd ↦
    hsame.nextPort ▸ hports.available wait port size deadline (hsame.foreground ▸ hd)
  running := fun hd ↦ by
    obtain ⟨wait, localPort, remote, earlier, hforeground, hlast, hattached⟩ :=
      hports.running (hsame.running ▸ hd)
    exact ⟨wait, localPort, remote, earlier, hsame.foreground.trans hforeground, hlast,
      hsame.attached localPort hattached⟩

/-- No transfer is running unless the command waits for its end. -/
theorem Ports.not_running (hports : Ports ports s)
    (hforeground : ∀ wait localPort remote, s.foreground ≠ .transferring wait localPort remote) :
    s.running = false := by
  rw [Bool.eq_false_iff]
  intro hrunning
  obtain ⟨wait, localPort, remote, -, htransferring, -⟩ := hports.running hrunning
  exact hforeground wait localPort remote htransferring

/-- A new connection takes the port behind all others. -/
theorem Ports.open (hports : Ports ports s) {wait : Fin timewaitSlots} {port : UInt32} {size : ℕ}
    {deadline : UInt64} (hresolving : s.foreground = .resolving wait port size deadline)
    (hforeground : d.foreground = .transferring wait s.nextPort.toUInt16 port.toUInt16)
    (hnext : d.nextPort = s.nextPort + 1) (hattached : Attached d.connection s.nextPort.toUInt16) :
    Ports (ports ++ [s.nextPort.toUInt16]) d := by
  have havailable := hports.available wait port size deadline hresolving
  have hport : s.nextPort.toUInt16.toNat = s.nextPort.toNat := by
    rw [UInt32.toNat_toUInt16, Nat.mod_eq_of_lt (by omega)]
  have hsucc : d.nextPort.toNat = s.nextPort.toNat + 1 := by
    rw [hnext, UInt32.toNat_add, UInt32.toNat_one, Nat.mod_eq_of_lt (by omega)]
  constructor
  · omega
  · intro p hp
    rcases List.mem_append.mp hp with hp | hp
    · have hused := hports.used p hp
      omega
    · rw [List.mem_singleton.mp hp, hport]
      omega
  · refine List.nodup_append.mpr ⟨hports.nodup, List.nodup_singleton _, ?_⟩
    intro p hp q hq heq
    have hused := hports.used p hp
    rw [heq, List.mem_singleton.mp hq, hport] at hused
    exact absurd hused (Nat.lt_irrefl _)
  · intro _ _ _ _ hd
    rw [hforeground] at hd
    cases hd
  · exact fun _ ↦ ⟨wait, _, _, ports, hforeground, rfl, hattached⟩

/-- The command leaves its loops without a new connection. -/
theorem Ports.leave (hports : Ports ports s) (hnext : d.nextPort = s.nextPort)
    (hforeground : ∀ wait port size deadline, d.foreground = .resolving wait port size deadline →
      s.nextPort.toNat ≤ 65535)
    (hrunning : d.running = false) : Ports ports d where
  high := hnext ▸ hports.high
  used := hnext ▸ hports.used
  nodup := hports.nodup
  available := fun wait port size deadline hd ↦ hnext ▸ hforeground wait port size deadline hd
  running := fun hd ↦ absurd (hrunning.symm.trans hd) Bool.false_ne_true

theorem Ports.step (hports : Ports ports s) (hprogress : Progress s h d) :
    Ports (ports ++ (opened s.foreground d.foreground).toList) d := by
  cases hprogress with
  | quiet hsame =>
    rw [hsame.foreground, opened_self, Option.toList_none, List.append_nil]
    exact hports.same hsame
  | extend _ _ hsame =>
    rw [hsame.foreground, opened_self, Option.toList_none, List.append_nil]
    exact hports.same hsame
  | reserve wait port size hidle _ hport hforeground hnext hrunning =>
    have hopened : opened s.foreground d.foreground = none := by
      rw [hidle]
      rfl
    rw [hopened, Option.toList_none, List.append_nil]
    refine hports.leave hnext (fun _ _ _ _ _ ↦ UInt32.le_iff_toNat_le.mp hport) (hrunning.trans ?_)
    exact hports.not_running fun _ _ _ hs ↦ Foreground.noConfusion (hidle.symm.trans hs)
  | giveUp hresolving hforeground hnext hrunning =>
    have hopened : opened s.foreground d.foreground = none := by
      rw [hresolving, hforeground]
      rfl
    rw [hopened, Option.toList_none, List.append_nil]
    refine hports.leave hnext (fun _ _ _ _ hd ↦ ?_) (hrunning.trans ?_)
    · exact Foreground.noConfusion (hforeground.symm.trans hd)
    · exact hports.not_running fun _ _ _ hs ↦ Foreground.noConfusion (hresolving.symm.trans hs)
  | «open» hresolving hforeground hnext hattached =>
    have hopened : opened s.foreground d.foreground = some s.nextPort.toUInt16 := by
      rw [hresolving, hforeground]
      rfl
    rw [hopened]
    exact hports.open hresolving hforeground hnext hattached
  | close htransferring hforeground hnext hrunning =>
    have hopened : opened s.foreground d.foreground = none := by
      rw [htransferring, hforeground]
      rfl
    rw [hopened, Option.toList_none, List.append_nil]
    exact hports.leave hnext (fun _ _ _ _ hd ↦ Foreground.noConfusion (hforeground.symm.trans hd)) hrunning
  | record htransferring hforeground hnext hrunning =>
    have hopened : opened s.foreground d.foreground = none := by
      rw [htransferring, hforeground]
      rfl
    rw [hopened, Option.toList_none, List.append_nil]
    exact hports.leave hnext (fun _ _ _ _ hd ↦ Foreground.noConfusion (hforeground.symm.trans hd)) hrunning

end

/-! ## The table -/

/-- The slot that the command has chosen for its record. -/
def Foreground.slot : Foreground → Option (Fin timewaitSlots)
  | .idle => none
  | .resolving wait _ _ _ => some wait
  | .transferring wait _ _ => some wait

/-- The chosen slot has expired, and every expiry lies two minutes after some reading of the clock. -/
structure Table (past : List UInt64) (s : Native ρ) : Prop where
  reserved : ∀ wait, s.foreground.slot = some wait → ∃ t ∈ past, (s.timewait wait).expires ≤ t
  expires : ∀ i, (s.timewait i).expires = 0 ∨ ∃ t ∈ past, (s.timewait i).expires = t + 120000000

/-- The same connection, not forgotten: its record stays as it is, or its FIN, sent again, starts the two
minutes anew. -/
structure Kept (w v : TimeWait) (times : List UInt64) : Prop where
  ip : v.ip = w.ip
  next : v.next = w.next
  acknowledgement : v.acknowledgement = w.acknowledgement
  localPort : v.localPort = w.localPort
  remote : v.remote = w.remote
  mac : v.mac = w.mac
  expires : v.expires = w.expires ∨ ∃ t ∈ times, v.expires = t + 120000000

section
variable {s d : Native ρ} {past : List UInt64} {h : Happening}

theorem Kept.refl (w : TimeWait) (times : List UInt64) : Kept w w times :=
  ⟨rfl, rfl, rfl, rfl, rfl, rfl, Or.inl rfl⟩

/-- Nothing but the foreground has changed, and it has not chosen another slot. -/
theorem Table.mono (htable : Table past s) (hsame : d.timewait = s.timewait)
    (hslot : ∀ wait, d.foreground.slot = some wait → s.foreground.slot = some wait) (times : List UInt64) :
    Table (past ++ times) d where
  reserved := fun wait hwait ↦ by
    obtain ⟨t, ht, hle⟩ := htable.reserved wait (hslot wait hwait)
    exact ⟨t, List.mem_append_left times ht, by rw [hsame]; exact hle⟩
  expires := fun i ↦ by
    rw [hsame]
    exact (htable.expires i).imp_right fun ⟨t, ht, heq⟩ ↦ ⟨t, List.mem_append_left times ht, heq⟩

/-- A slot gets a record that expires two minutes from now. -/
theorem Table.update (htable : Table past s) {i : Fin timewaitSlots} {w : TimeWait} {now : UInt64}
    (hd : d.timewait = Function.update s.timewait i w) (hw : w.expires = now + 120000000)
    (hslot : ∀ wait, d.foreground.slot = some wait → s.foreground.slot = some wait ∧ wait ≠ i) :
    Table (past ++ [now]) d where
  reserved := fun wait hwait ↦ by
    obtain ⟨hwait, hne⟩ := hslot wait hwait
    obtain ⟨t, ht, hle⟩ := htable.reserved wait hwait
    refine ⟨t, List.mem_append_left _ ht, ?_⟩
    rw [hd, Function.update_of_ne hne]
    exact hle
  expires := fun j ↦ by
    rw [hd]
    by_cases hj : j = i
    · subst hj
      rw [Function.update_self, hw]
      exact Or.inr ⟨now, List.mem_append_right _ List.mem_cons_self, rfl⟩
    · rw [Function.update_of_ne hj]
      exact (htable.expires j).imp_right fun ⟨t, ht, heq⟩ ↦ ⟨t, List.mem_append_left _ ht, heq⟩

theorem Table.step (htable : Table past s) (hprogress : Progress s h d)
    (hclock : ∀ t ∈ past, ∀ now ∈ h.times, t ≤ now) : Table (past ++ h.times) d := by
  cases hprogress with
  | quiet hsame hd => exact htable.mono hd (fun _ hwait ↦ hsame.foreground ▸ hwait) _
  | @extend frame size now _ i halive hsame hd =>
    refine htable.update hd rfl fun wait hwait ↦ ?_
    rw [hsame.foreground] at hwait
    refine ⟨hwait, fun heq ↦ ?_⟩
    -- The chosen slot had expired before, the extended one has not.
    obtain ⟨t, ht, hle⟩ := htable.reserved wait hwait
    have hnow := hclock t ht now List.mem_cons_self
    rw [heq] at hle
    exact absurd halive (UInt64.not_lt.mpr (UInt64.le_trans hle hnow))
  | @reserve r up calibrated now start _ wait port size hidle hexpired hport hforeground hnext hrunning hd =>
    refine ⟨fun i hi ↦ ?_, fun i ↦ ?_⟩
    · rw [hforeground] at hi
      rw [hd, ← Option.some.inj hi]
      exact ⟨now, List.mem_append_right _ List.mem_cons_self, hexpired⟩
    · rw [hd]
      exact (htable.expires i).imp_right fun ⟨t, ht, heq⟩ ↦ ⟨t, List.mem_append_left _ ht, heq⟩
  | giveUp hresolving hforeground hnext hrunning hd =>
    refine htable.mono hd (fun wait hwait ↦ ?_) _
    rw [hforeground] at hwait
    cases hwait
  | «open» hresolving hforeground hnext hattached hd =>
    refine htable.mono hd (fun wait hwait ↦ ?_) _
    rw [hforeground] at hwait
    rw [hresolving]
    exact hwait
  | close htransferring hforeground hnext hrunning hd =>
    refine htable.mono hd (fun wait hwait ↦ ?_) _
    rw [hforeground] at hwait
    cases hwait
  | record htransferring hforeground hnext hrunning hd =>
    refine htable.update hd rfl fun wait hwait ↦ ?_
    rw [hforeground] at hwait
    cases hwait

/-- A record that has not expired is kept. -/
theorem Table.kept (htable : Table past s) (hprogress : Progress s h d)
    (hclock : ∀ t ∈ past, ∀ now ∈ h.times, t ≤ now) {i : Fin timewaitSlots}
    (halive : ∀ now ∈ h.times, now < (s.timewait i).expires) :
    Kept (s.timewait i) (d.timewait i) h.times := by
  cases hprogress with
  | quiet _ hd => rw [hd]; exact Kept.refl _ _
  | @extend frame size now _ j _ _ hd =>
    rw [hd]
    by_cases hi : i = j
    · subst hi
      rw [Function.update_self]
      exact ⟨rfl, rfl, rfl, rfl, rfl, rfl, Or.inr ⟨now, List.mem_cons_self, rfl⟩⟩
    · rw [Function.update_of_ne hi]
      exact Kept.refl _ _
  | reserve _ _ _ _ _ _ _ _ _ hd => rw [hd]; exact Kept.refl _ _
  | giveUp _ _ _ _ hd => rw [hd]; exact Kept.refl _ _
  | «open» _ _ _ _ hd => rw [hd]; exact Kept.refl _ _
  | close _ _ _ _ hd => rw [hd]; exact Kept.refl _ _
  | @record now _ wait _ _ htransferring _ _ _ hd =>
    have hne : i ≠ wait := by
      rintro rfl
      obtain ⟨t, ht, hle⟩ := htable.reserved i (by rw [htransferring]; rfl)
      have hnow := hclock t ht now List.mem_cons_self
      have hlive := halive now List.mem_cons_self
      exact absurd hlive (UInt64.not_lt.mpr (UInt64.le_trans hle hnow))
    rw [hd, Function.update_of_ne hne]
    exact Kept.refl _ _

/-- Unless two minutes from now the clock would wrap, no expiry moves back. -/
theorem Table.expires_le (htable : Table past s) {times : List UInt64}
    (hclock : ∀ t ∈ past, ∀ now ∈ times, t ≤ now) {i : Fin timewaitSlots} {v : TimeWait}
    (hkept : Kept (s.timewait i) v times) (hlate : ∀ now ∈ times, now.toNat + 120000000 < 2 ^ 64) :
    (s.timewait i).expires ≤ v.expires := by
  rcases hkept.expires with hsame | ⟨now, hnow, hnew⟩
  · rw [hsame]
    exact UInt64.le_refl _
  have hwrap := hlate now hnow
  have hminutes : (120000000 : UInt64).toNat = 120000000 := rfl
  rw [hnew, UInt64.le_iff_toNat_le, UInt64.toNat_add, hminutes, Nat.mod_eq_of_lt hwrap]
  rcases htable.expires i with hzero | ⟨t, ht, hold⟩
  · rw [hzero, UInt64.toNat_zero]
    exact Nat.zero_le _
  · have hle := UInt64.le_iff_toNat_le.mp (hclock t ht now hnow)
    rw [hold, UInt64.toNat_add, hminutes, Nat.mod_eq_of_lt (by omega)]
    omega

end

/-! ## Packets -/

/-- The port that `net_decode` reports is the one `tcp_input` reads. -/
theorem destinationPort_eq {frame : Memory} {size : ℕ} {packet : Packet}
    (h : tcpPacketOf frame size = some packet) :
    packet.destinationPort = netRead16 ((frame.shift 34).shift 2) := by
  obtain ⟨hdecoded, hprotocol⟩ := Option.filter_eq_some_iff.mp h
  obtain ⟨-, ports, hports, rfl⟩ := netDecode_eq_some_iff.mp hdecoded
  have htcp : (frame.shift 14) 9 = netTcp := beq_iff_eq.mp hprotocol
  unfold netDecodeBody at hports
  dsimp only at hports
  rw [htcp, if_neg (by decide), if_neg (by decide), if_pos rfl] at hports
  split at hports
  · cases hports
  · rw [← Option.some.inj hports]
    rfl

/-- A connection leaves segments for another local port alone. -/
theorem tcpInput_of_attached {c : Tcp ρ} {localPort : UInt16} (h : Attached c localPort) {b : Memory}
    (hport : netRead16 (b.shift 2) ≠ localPort) (size : ℕ) (now : UInt64) :
    tcpInput core c b size now = c := by
  rcases h with hfailed | hlocal
  · exact step_of_failed core hfailed (.input b size now)
  · refine tcpInput_of_not_addressed core now ?_
    unfold addressed
    rw [hlocal, bne_iff_ne.mpr hport, Bool.or_true]
    rfl

theorem tcpNetInput_connection {s : Native ρ} {ports : List UInt16} (hports : Ports ports s)
    {frame : Memory} {packet : Packet}
    (hdestination : packet.destinationPort = netRead16 ((frame.shift 34).shift 2))
    (hearlier : packet.destinationPort ∈ ports.dropLast) (now : UInt64) :
    (tcpNetInput core s frame packet now).connection = s.connection := by
  unfold tcpNetInput
  dsimp only
  split
  · rfl
  split
  · split <;> rfl
  split
  · rename_i hmine
    obtain ⟨wait, localPort, remote, earlier, -, hlast, hattached⟩ := hports.running hmine.1
    have hnodup := hports.nodup
    rw [hlast, List.dropLast_concat] at hearlier
    rw [hlast] at hnodup
    have hne : packet.destinationPort ≠ localPort :=
      (List.nodup_append.mp hnodup).2.2 _ hearlier _ List.mem_cons_self
    exact tcpInput_of_attached core hattached (hdestination ▸ hne) _ now
  · rfl

/-! ## Runs -/

theorem connections_concat (s : Native ρ) (happenings : List Happening) (h : Happening) :
    connections core netMac s (happenings ++ [h]) = connections core netMac s happenings ++
      (opened (run (advance core netMac) s happenings).foreground
        (advance core netMac (run (advance core netMac) s happenings) h).foreground).toList := by
  induction happenings generalizing s with
  | nil =>
    rw [List.nil_append, connections, connections, connections, List.append_nil, List.nil_append, run_nil]
  | cons first happenings ih =>
    rw [List.cons_append, connections, ih, connections, List.append_assoc, run_cons]

/-- The readings of a step are not older than those before it. -/
theorem Ordered.clock {before after : List Happening} {h : Happening}
    (hordered : Ordered (before ++ h :: after)) :
    ∀ t ∈ before.flatMap Happening.times, ∀ now ∈ h.times, t ≤ now := by
  intro t ht now hnow
  unfold Ordered at hordered
  rw [List.flatMap_append, List.flatMap_cons] at hordered
  exact (List.pairwise_append.mp hordered).2.2 t ht now (List.mem_append_left _ hnow)

theorem booked_run {happenings : List Happening} (hordered : Ordered happenings) :
    Ports (connections core netMac (booted core) happenings)
        (run (advance core netMac) (booted core) happenings) ∧
      Table (happenings.flatMap Happening.times) (run (advance core netMac) (booted core) happenings) := by
  refine run_induction (advance core netMac) (fun past s ↦
    Ports (connections core netMac (booted core) past) s ∧ Table (past.flatMap Happening.times) s) ?_ ?_
  · have hfirst : (booted core).nextPort.toNat = 49152 := rfl
    refine ⟨⟨by omega, by simp [connections], List.nodup_nil, ?_, ?_⟩, ?_, fun _ ↦ Or.inl rfl⟩
    · intro _ _ _ _ hresolving
      cases hresolving
    · intro hrunning
      cases hrunning
    · intro _ hslot
      cases hslot
  · rintro before h after rfl ⟨hports, htable⟩
    have hprogress := progress_advance core netMac (run (advance core netMac) (booted core) before) h
    rw [connections_concat, List.flatMap_append, List.flatMap_singleton]
    exact ⟨hports.step hprogress, htable.step hprogress hordered.clock⟩

/-- The first part of a run with an ordered clock. -/
theorem Ordered.before {first second : List Happening} (hordered : Ordered (first ++ second)) :
    Ordered first := by
  unfold Ordered at hordered ⊢
  rw [List.flatMap_append] at hordered
  exact (List.pairwise_append.mp hordered).1

/-- However transfers, packets and readings of a clock that does not go backwards follow each other: no
local port is used twice, a record that has not expired is kept, and a packet for an earlier connection
leaves the current one as it is. -/
theorem connections_isolated (happenings : List Happening) (hordered : Ordered happenings) :
    (connections core netMac (booted core) happenings).Nodup ∧
      ∀ before h after, happenings = before ++ h :: after →
        let s := run (advance core netMac) (booted core) before
        let d := advance core netMac s h
        (∀ i, (∀ now ∈ h.times, now < (s.timewait i).expires) →
          Kept (s.timewait i) (d.timewait i) h.times ∧
            ((∀ now ∈ h.times, now.toNat + 120000000 < 2 ^ 64) →
              (s.timewait i).expires ≤ (d.timewait i).expires)) ∧
        ∀ frame size now packet, h = .frame frame size now → tcpPacketOf frame size = some packet →
          packet.destinationPort ∈ (connections core netMac (booted core) before).dropLast →
          d.connection = s.connection := by
  refine ⟨(booked_run core netMac hordered).1.nodup, ?_⟩
  rintro before h after rfl s d
  obtain ⟨hports, htable⟩ := booked_run core netMac hordered.before
  have hprogress : Progress s h d := progress_advance core netMac s h
  refine ⟨fun i halive ↦ ?_, ?_⟩
  · have hkept := htable.kept hprogress hordered.clock halive
    exact ⟨hkept, htable.expires_le hordered.clock hkept⟩
  rintro frame size now packet rfl hpacket hearlier
  have hinput : d = tcpNetInput core s frame packet now := by
    change advance core netMac s (.frame frame size now) = _
    unfold advance
    dsimp only
    rw [hpacket]
  rw [hinput]
  exact tcpNetInput_connection core hports (destinationPort_eq hpacket) hearlier now

/-! ## Completed transfers -/

section
variable {w v u : TimeWait} {first second : List UInt64}

theorem Kept.mono (h : Kept w v first) (hsub : first ⊆ second) : Kept w v second :=
  { h with expires := h.expires.imp_right fun ⟨t, ht, heq⟩ ↦ ⟨t, hsub ht, heq⟩ }

theorem Kept.trans (hfirst : Kept w v first) (hsecond : Kept v u second) :
    Kept w u (first ++ second) where
  ip := hsecond.ip.trans hfirst.ip
  next := hsecond.next.trans hfirst.next
  acknowledgement := hsecond.acknowledgement.trans hfirst.acknowledgement
  localPort := hsecond.localPort.trans hfirst.localPort
  remote := hsecond.remote.trans hfirst.remote
  mac := hsecond.mac.trans hfirst.mac
  expires := by
    rcases hsecond.expires with hsame | ⟨t, ht, hnew⟩
    · exact hsame ▸ (hfirst.mono (List.subset_append_left first second)).expires
    · exact Or.inr ⟨t, List.mem_append_right first ht, hnew⟩

end

/-- A record is kept through every run that ends before it expires, and its expiry does not move back. -/
theorem kept_run {before after : List Happening} (hordered : Ordered (before ++ after))
    {i : Fin timewaitSlots}
    (halive : ∀ now ∈ after.flatMap Happening.times,
      now < ((run (advance core netMac) (booted core) before).timewait i).expires)
    (hlate : ∀ now ∈ after.flatMap Happening.times, now.toNat + 120000000 < 2 ^ 64) :
    let w := (run (advance core netMac) (booted core) before).timewait i
    let v := (run (advance core netMac) (booted core) (before ++ after)).timewait i
    Kept w v (after.flatMap Happening.times) ∧ w.expires ≤ v.expires := by
  intro w v
  have hrun : v = (run (advance core netMac) (run (advance core netMac) (booted core) before) after).timewait i :=
    congrArg (fun s ↦ s.timewait i) (run_append (advance core netMac) (booted core) before after)
  rw [hrun]
  refine run_induction (advance core netMac) (fun past s ↦
    Kept w (s.timewait i) (past.flatMap Happening.times) ∧ w.expires ≤ (s.timewait i).expires)
    ⟨Kept.refl w _, UInt64.le_refl _⟩ ?_
  rintro past h rest rfl ⟨hkept, hle⟩
  rw [← List.append_assoc] at hordered
  have hmem : ∀ now ∈ h.times, now ∈ (past ++ h :: rest).flatMap Happening.times := fun now hnow ↦ by
    rw [List.flatMap_append, List.flatMap_cons]
    exact List.mem_append_right _ (List.mem_append_left _ hnow)
  obtain ⟨-, htable⟩ := booked_run core netMac hordered.before
  rw [run_append] at htable
  have hprogress := progress_advance core netMac
    (run (advance core netMac) (run (advance core netMac) (booted core) before) past) h
  have hstep := htable.kept hprogress hordered.clock
    fun now hnow ↦ UInt64.lt_of_lt_of_le (halive now (hmem now hnow)) hle
  rw [List.flatMap_append, List.flatMap_singleton]
  exact ⟨hkept.trans hstep, UInt64.le_trans hle
    (htable.expires_le hordered.clock hstep fun now hnow ↦ hlate now (hmem now hnow))⟩

/-- The end of a transfer that is done puts its record into the slot the command has chosen. -/
theorem finish_timewait {s : Native ρ} {wait : Fin timewaitSlots} {localPort remote : UInt16}
    (hforeground : s.foreground = .transferring wait localPort remote)
    (hdone : s.connection.state = .done) (now : UInt64) :
    (finish s now).timewait wait = completed s localPort remote now := by
  unfold finish
  rw [hforeground]
  dsimp only
  rw [if_neg (fun h ↦ h.1 hdone), if_pos hdone]
  exact Function.update_self wait _ s.timewait

/-- A completed transfer leaves the record of its connection, and for two minutes nothing takes it away. -/
theorem completed_remembered {before after : List Happening} {now : UInt64}
    (hordered : Ordered (before ++ .finish now :: after)) {wait : Fin timewaitSlots}
    {localPort remote : UInt16}
    (hforeground : (run (advance core netMac) (booted core) before).foreground =
      .transferring wait localPort remote)
    (hdone : (run (advance core netMac) (booted core) before).connection.state = .done)
    (halive : ∀ t ∈ after.flatMap Happening.times, t < now + 120000000)
    (hlate : ∀ t ∈ after.flatMap Happening.times, t.toNat + 120000000 < 2 ^ 64) :
    let w := completed (run (advance core netMac) (booted core) before) localPort remote now
    let v := (run (advance core netMac) (booted core) (before ++ .finish now :: after)).timewait wait
    Kept w v (after.flatMap Happening.times) ∧ now + 120000000 ≤ v.expires := by
  intro w v
  have hrecord : (run (advance core netMac) (booted core) (before ++ [.finish now])).timewait wait = w := by
    rw [run_concat]
    exact finish_timewait hforeground hdone now
  have hsplit : before ++ .finish now :: after = before ++ [.finish now] ++ after := by
    rw [List.append_assoc, List.singleton_append]
  rw [hsplit] at hordered
  have hkept := kept_run core netMac hordered (i := wait) (by rw [hrecord]; exact halive) hlate
  rw [hrecord, ← hsplit] at hkept
  exact hkept

/-! ## Two transfers -/

def card : Memory := Memory.ofList [2, 0, 0, 0, 0, 1]

/-- The peer answers the search for 192.0.2.1. -/
def arpAnswer : Memory := Memory.ofList
  [2, 0, 0, 0, 0, 1, 2, 0, 0, 0, 0, 9, 8, 6, 0, 1, 8, 0, 6, 4, 0, 2,
    2, 0, 0, 0, 0, 9, 192, 0, 2, 1, 2, 0, 0, 0, 0, 1, 192, 0, 2, 2]

/-- The peer accepts the connection to its port 80. -/
def synAnswer : Memory := Memory.ofList
  [2, 0, 0, 0, 0, 1, 2, 0, 0, 0, 0, 9, 8, 0, 69, 0, 0, 40, 0, 0, 0, 0, 64, 6, 246, 204, 192, 0, 2, 1,
    192, 0, 2, 2, 0, 80, 192, 0, 0, 0, 1, 244, 0, 0, 0, 101, 80, 18, 16, 0, 89, 37, 0, 0]

/-- The peer acknowledges our FIN and sends its own. -/
def finAnswer : Memory := Memory.ofList
  [2, 0, 0, 0, 0, 1, 2, 0, 0, 0, 0, 9, 8, 0, 69, 0, 0, 40, 0, 0, 0, 0, 64, 6, 246, 204, 192, 0, 2, 1,
    192, 0, 2, 2, 0, 80, 192, 0, 0, 0, 1, 245, 0, 0, 0, 102, 80, 17, 16, 0, 89, 36, 0, 0]

/-- A transfer up to its SYN. -/
def startedTransfer (now : UInt64) : List Happening :=
  [.command ⟨0xc0000201, 0xffffffff, 80, .nothing, none⟩ true true now now, .request now true,
    .arp arpAnswer 42, .resolve true now now 100 (fun _ _ _ ↦ true), .poll now]

/-- A transfer of nothing that ends well, and the next one. -/
def secondTransfer : List Happening :=
  startedTransfer 1000 ++
    [.frame synAnswer 54 2000, .poll 3000, .frame finAnswer 54 4000, .poll 5000, .finish 6000] ++
    startedTransfer 7000

theorem finAnswer_packet :
    tcpPacketOf finAnswer 54 = some ⟨0xc0000201, 0xc0000202, 80, 49152, 40, 6⟩ := by decide +kernel

/-- The FIN of the first connection comes again while the second one opens. -/
theorem connections_isolated_repeatedFin :
    let s := run (advance steadyCore card) (booted steadyCore) secondTransfer
    let d := advance steadyCore card s (.frame finAnswer 54 8000)
    (connections steadyCore card (booted steadyCore) (secondTransfer ++ [.frame finAnswer 54 8000])).Nodup ∧
      connections steadyCore card (booted steadyCore) secondTransfer = [49152, 49153] ∧
      Kept (s.timewait 0) (d.timewait 0) [8000] ∧ d.connection = s.connection ∧
      (s.timewait 0).expires = 120006000 ∧ (d.timewait 0).expires = 120008000 ∧
      s.connection.state = .synSent := by
  have hports : connections steadyCore card (booted steadyCore) secondTransfer = [49152, 49153] := by
    decide +kernel
  have hexpires : ((run (advance steadyCore card) (booted steadyCore) secondTransfer).timewait 0).expires =
      120006000 := by decide +kernel
  obtain ⟨hnodup, hsteps⟩ := connections_isolated steadyCore card
    (secondTransfer ++ [.frame finAnswer 54 8000]) (by unfold Ordered; decide)
  obtain ⟨hrecords, hpackets⟩ := hsteps secondTransfer (.frame finAnswer 54 8000) [] rfl
  have halive : ∀ now ∈ (Happening.frame finAnswer 54 8000).times,
      now < ((run (advance steadyCore card) (booted steadyCore) secondTransfer).timewait 0).expires := by
    intro now hnow
    rw [hexpires, List.mem_singleton.mp hnow]
    decide
  have hearlier : (49152 : UInt16) ∈
      (connections steadyCore card (booted steadyCore) secondTransfer).dropLast := by
    rw [hports]
    decide
  exact ⟨hnodup, hports, (hrecords 0 halive).1, hpackets finAnswer 54 8000 _ rfl finAnswer_packet hearlier,
    hexpires, by decide +kernel, by decide +kernel⟩

end JordyOS.Transport
