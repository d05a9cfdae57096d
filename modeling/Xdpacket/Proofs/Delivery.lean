import Xdpacket.Proofs.FirstMatch
import Xdpacket.Proofs.NoDangling
import Xdpacket.Proofs.Summed

namespace Xdpacket

variable {w v u : World} {live : Multiset Ref} {env : Env} {host : Endian} {f : Bytes} {a rst : Addr}

section Gate

/-- A frame of another ethertype is refused as it is. -/
theorem checksum_not_ip (h : etherType host f ≠ ETH_P_IP) :
    ∃ code, code ≠ .ok ∧ checksum host f = .ok (code, f) := by
  have hrun : Runs (fun _ => False) (checksum host) f (fun code t => code ≠ .ok ∧ t = f) := by
    unfold checksum
    rw [Runs.bind_iff, Runs.get_iff]
    simp only
    by_cases hl : f.length ≤ 34 ∨ 65535 < f.length
    · rw [if_pos hl]
      exact ⟨by simp, rfl⟩
    rw [if_neg hl]
    refine ((load16_needs host 12 f).runs (by omega)).bind ?_
    intro v t ht
    obtain ⟨rfl, rfl⟩ := ht
    have hn : be16toh host (wordAt host t 12) ≠ ETH_P_IP := h
    rw [if_pos hn]
    exact ⟨by simp, rfl⟩
  obtain ⟨code, t, hr, hc, rfl⟩ := hrun.exists_ok
  exact ⟨code, hc, hr⟩

theorem syscall_sent : Runs (fun _ => False) syscall w (fun _ v => v.sent = w.sent) := by
  unfold syscall
  rw [Runs.modifyGet_iff]
  split <;> rfl

/-- What `iface_output` does with the packet: it hands over what `checksum` made of it, or
counts a failure. -/
theorem ifaceOutput_ok {n : Nat} (h : ifaceOutput env a w = .ok (n, v)) :
    ∃ code t, checksum env.host w.pkt = .ok (code, t) ∧
      if code = .ok then v.sent = w.sent ++ [(a, t)] else n = 1 ∧ v.sent = w.sent := by
  obtain ⟨code, u, hc, hk⟩ := bind_eq_ok.mp h
  unfold liftFrame at hc
  cases hr : checksum env.host w.pkt with
  | error e =>
    rw [hr] at hc
    cases hc
  | ok p =>
    obtain ⟨code', t⟩ := p
    rw [hr] at hc
    cases hc
    refine ⟨code, t, rfl, ?_⟩
    obtain ⟨i, x, hi, hk⟩ := bind_eq_ok.mp hk
    obtain ⟨-, rfl⟩ := deref_ok.mp hi
    split at hk
    · rename_i hne
      rw [if_neg hne]
      obtain ⟨_, x, hp, hk⟩ := bind_eq_ok.mp hk
      cases hp
      obtain ⟨rfl, rfl⟩ := pure_eq_ok.mp hk
      exact ⟨rfl, rfl⟩
    · rename_i hok
      rw [if_pos (not_not.mp hok)]
      obtain ⟨_, x, hm, hk⟩ := bind_eq_ok.mp hk
      cases hm
      obtain ⟨ok, y, hs, hk⟩ := bind_eq_ok.mp hk
      have hsent : y.sent = w.sent ++ [(a, t)] := syscall_sent.ok hs
      split at hk
      · obtain ⟨-, rfl⟩ := pure_eq_ok.mp hk
        exact hsent
      · obtain ⟨_, z, hp, hk⟩ := bind_eq_ok.mp hk
        cases hp
        obtain ⟨-, rfl⟩ := pure_eq_ok.mp hk
        exact hsent

end Gate

section Ipv6

def ETH_P_IPV6 : Nat := 0x86DD

/-- The shortest header of an upper-level protocol. -/
def l4HeadLen (proto : UInt8) : Nat := if proto = IPPROTO_TCP then 20 else 8

/-- An Ethernet frame with an IPv6 packet that has no extension headers. -/
structure Ipv6Frame (f : Bytes) : Prop where
  length : f.length ≤ 65535
  etherType : bigWord (byteAt f 12) (byteAt f 13) = ETH_P_IPV6
  version : ipVersion f = 6
  proto : byteAt f 20 ∈ [IPPROTO_TCP, IPPROTO_UDP, IPPROTO_ICMPV6]
  fits : 54 + bigWord (byteAt f 18) (byteAt f 19) ≤ f.length
  covers : l4HeadLen (byteAt f 20) ≤ bigWord (byteAt f 18) (byteAt f 19)

/-- `checksum` accepts the frame, and a receiver would too. -/
def Checksummed (host : Endian) (f : Bytes) : Prop :=
  ∃ t, checksum host f = .ok (.ok, t) ∧ Verifies t

/-- No frame of the ethertype of IPv6 is checksummed, and none is sent. -/
theorem ipv6_never_output (h : bigWord (byteAt f 12) (byteAt f 13) = ETH_P_IPV6) :
    ¬ Checksummed host f ∧ ∀ env w v a n, w.pkt = f → ifaceOutput env a w = .ok (n, v) →
      n = 1 ∧ v.sent = w.sent := by
  have hne : ∀ host, etherType host f ≠ ETH_P_IP := by
    intro host he
    rw [etherType_eq, h] at he
    cases he
  constructor
  · intro hc
    obtain ⟨t, ht, -⟩ := hc
    obtain ⟨code, hcode, hr⟩ := checksum_not_ip (hne host)
    rw [hr] at ht
    cases ht
    exact hcode rfl
  · intro env w v a n hw hr
    obtain ⟨code, t, hc, hs⟩ := ifaceOutput_ok hr
    obtain ⟨code', hcode, hr'⟩ := checksum_not_ip (hne env.host)
    rw [hw, hr'] at hc
    cases hc
    rwa [if_neg hcode] at hs

/-- A UDP datagram without data. -/
def udp6 : Bytes :=
  List.replicate 12 0 ++ [0x86, 0xdd, 0x60, 0, 0, 0, 0, 8, 17, 64] ++ List.replicate 32 1 ++
    [0, 53, 0, 53, 0, 8, 0, 0]

theorem ipv6_never_output_udp6 : ¬ Checksummed .little udp6 ∧
    ∀ env w v a n, w.pkt = udp6 → ifaceOutput env a w = .ok (n, v) → n = 1 ∧ v.sent = w.sent :=
  ipv6_never_output (by decide)

theorem udp6_refused : ¬ ∀ host f, Ipv6Frame f → Checksummed host f := by
  intro h
  obtain ⟨t, ht, -⟩ := h .little udp6 ⟨by decide, by decide, by decide, by decide, by decide, by decide⟩
  have hr : checksum .little udp6 = .ok (.unsupported, udp6) := by decide
  rw [hr] at ht
  cases ht

end Ipv6

section Agnostic

/-- Some rout matches the packet, and all writes of the first that does succeed: `u` is the
state after them, `out` the iface that the frame is meant for. -/
def Rewritten (env : Env) (context : Option Addr) (w : World) (out : Addr) (u : World) : Prop :=
  ∃ before k after set ws, HasRoutSets w context (before ++ k :: after) ∧
    (∀ rst ∈ before, Refuses w rst) ∧ Accepts w k ∧ w.rsets k = some set ∧ set.ifOut = out ∧
    HasQueue w Rule.writeJQ set.writeJQ ws ∧ Applied env ws (countMatch w k set) u

/-- The frame that the writes left is sent once, as it is. -/
def FrameSent (env : Env) (context : Option Addr) (w : World) (out : Addr) (u : World) : Prop :=
  ∃ v, processExec env context w = .ok ((), v) ∧ v.sent = w.sent ++ [(out, u.pkt)]

theorem opWriteRecorded_sent {op : OpSet} {rc : Nat}
    (h : opWriteRecorded env op w = .ok (rc, v)) : v.sent = w.sent ∧ v.ifaces = w.ifaces := by
  rw [opWriteRecorded_only h]
  exact ⟨rfl, rfl⟩

/-- Writing sends nothing. -/
theorem Applied.sent {ops : List Op} (h : Applied env ops w v) :
    v.sent = w.sent ∧ v.ifaces = w.ifaces := by
  induction h with
  | nil => exact ⟨rfl, rfl⟩
  | cons op ops w v u first rest ih =>
    obtain ⟨hs, hi⟩ := opWriteRecorded_sent first
    exact ⟨ih.1.trans hs, ih.2.trans hi⟩

theorem processExec_eq {context : Option Addr} {rsts : List Addr} (h : HasRoutSets w context rsts) :
    processExec env context w = processExecAll env rsts w := by
  unfold processExec routSetQueue
  cases context with
  | none =>
    obtain rfl : rsts = [] := h
    rfl
  | some a =>
    obtain ⟨pc, hp, rfl⟩ := h
    have hd : deref World.processes a w = .ok (pc, w) := deref_ok.mpr ⟨hp, rfl⟩
    simp only [bind_assoc, pure_bind]
    change (deref World.processes a w).bind _ = _
    rw [hd]
    rfl

/-- Routs that refuse the packet are passed by. -/
theorem loop_skips {before rest : List Addr} (h : ∀ rst ∈ before, Refuses w rst) :
    processExecAll env (before ++ rest) w = .ok ((), v) ↔ processExecAll env rest w = .ok ((), v) := by
  induction before with
  | nil => rfl
  | cons rst before ih =>
    rw [List.cons_append, loop_next (h rst (List.mem_cons_self ..))]
    exact ih (fun r hr => h r (List.mem_cons_of_mem _ hr))

/-- After the writes all that is left is to output. -/
theorem processExec_outputs {context : Option Addr} (h : Rewritten env context w a u) :
    processExec env context w = .ok ((), v) ↔ ∃ n, ifaceOutput env a u = .ok (n, v) := by
  obtain ⟨before, k, after, set, ws, hctx, hb, ha, hs, rfl, hq, happ⟩ := h
  rw [processExec_eq hctx, loop_skips hb, loop_acts ha, Acts.of_loop hs]
  have hexec : routSetExec env k (countMatch w k set) = .ok (true, u) := by
    simp only [routSetExec, bind_eq_ok, deref_ok, opQueue_ok]
    exact ⟨_, _, ⟨Function.update_self .., rfl⟩, ws, _, ⟨hq, rfl⟩, writeAll_true.mpr happ⟩
  rw [hexec]
  constructor
  · intro h
    obtain ⟨done, t, he, hd⟩ := h
    cases he
    exact hd
  · intro h
    exact ⟨true, u, rfl, h⟩

/-- Nothing has been sent yet, and the output is a live iface. -/
theorem Rewritten.sent {context : Option Addr} (hu : Rewritten env context w a u)
    (h : Consistent w live) : u.sent = w.sent ∧ (u.ifaces a).isSome := by
  obtain ⟨before, k, after, set, ws, hctx, -, -, hs, rfl, -, happ⟩ := hu
  obtain ⟨hsent, hifaces⟩ := happ.sent
  refine ⟨hsent, ?_⟩
  cases context with
  | none => exact absurd hctx (by simp [HasRoutSets])
  | some p =>
    obtain ⟨pc, hp, hq⟩ := hctx
    have hmem : k ∈ pc.routSetJQ := by
      rw [hq]
      simp
    obtain ⟨s, hs', hout, -⟩ := runnable_of_process h hp hmem
    rw [hs] at hs'
    cases hs'
    rw [hifaces]
    exact hout

/-- What `checksum` makes of the frame is all that may have been sent. -/
theorem Rewritten.delivered {context : Option Addr} (hu : Rewritten env context w a u)
    (hs : u.sent = w.sent) (hd : FrameSent env context w a u) :
    checksum env.host u.pkt = .ok (.ok, u.pkt) := by
  obtain ⟨v, hv, hv'⟩ := hd
  obtain ⟨n, hv⟩ := (processExec_outputs hu).mp hv
  obtain ⟨code, t, hc, hcode⟩ := ifaceOutput_ok hv
  split at hcode
  · rename_i hok
    rw [hs, hv', List.append_cancel_left_eq] at hcode
    cases hcode
    rw [hc, hok]
  · rw [hcode.2, hs] at hv'
    exact absurd (congrArg List.length hv') (by simp)

/-- `{iface: e}` -/
def ifaceE : Document where
  size := 3
  node := List.get [.mapping [(1, 2)], .scalar "iface", .scalar "e"]

/-- `{rule: x}` -/
def ruleX : Document where
  size := 3
  node := List.get [.mapping [(1, 2)], .scalar "rule", .scalar "x"]

/-- `{process: e, rules: [{x: e}]}` -/
def processE : Document where
  size := 8
  node := List.get [.mapping [(1, 2), (3, 4)], .scalar "process", .scalar "e", .scalar "rules",
    .sequence [5], .mapping [(6, 7)], .scalar "x", .scalar "e"]

def reflectE : List Event :=
  [.mapping .iface .add ifaceE ([(1, 2)] : List (Fin 3 × Fin 3)),
    .mapping .rule .add ruleX ([(1, 2)] : List (Fin 3 × Fin 3)),
    .mapping .process .add processE ([(1, 2), (3, 4)] : List (Fin 8 × Fin 8))]

def arpFrame : Bytes := List.replicate 12 0 ++ [8, 6] ++ List.replicate 28 0

end Agnostic

end Xdpacket
