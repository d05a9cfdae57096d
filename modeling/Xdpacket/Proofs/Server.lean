import Mathlib.Data.List.Flatten
import Xdpacket.Model.Server
import Xdpacket.Proofs.Descriptors
import Xdpacket.Proofs.NoDangling

namespace Xdpacket

variable {E : Fault → Prop} {w v : World} {live : Multiset Ref} {env : Env}
  {load : Bytes → Option Document} {ext given : List Nat} {s t : Server}

section Worlds

/-- A program in the world of the server. -/
theorem inWorld_iff {x : M α} {Q : α → Server → Prop} :
    Runs E (inWorld x) s Q ↔ Runs E x s.world (fun r w => Q r { s with world := w }) := by
  unfold Runs inWorld
  cases x s.world <;> rfl

/-- What a world of the server is: consistent, and the descriptors in `ext` are the
server's. -/
def Sound (ext : List Nat) (w : World) : Prop := (∃ live, Consistent w live) ∧ Descriptors ext w

theorem sound_steadfast : Steadfast (Sound ext) :=
  (@descriptors_companion .sample ext).steadfast

theorem Sound.of_idle (h : Sound ext w) (hi : Idle w v) (ho : v.openFds = w.openFds) :
    Sound ext v :=
  sound_steadfast.idle w v h hi ho

theorem Sound.keep (h : Sound ext w) {m : M α} {Q : α → World → Prop}
    [ho : Obeys .sample (fun _ => True) (Descriptors ext) m] (hm : Frames NoDangle Idle m w Q) :
    Runs NoDangle m w (fun _ v => Sound ext v) := by
  obtain ⟨⟨live, hc⟩, hd⟩ := h
  refine (Runs.and hm (ho.keeps.runs hd)).imp ?_
  intro _ v hv
  exact ⟨⟨live, hv.1.1.consistent hc⟩, hv.2⟩

variable (env) in
/-- A mapping keeps the world sound, whatever its parser does. -/
theorem subsystemParse_sound (doc : Document) (sub : Subsystem) (mode : ParseMode)
    (mapping : Pairs doc) (h : Sound ext w) :
    Frames NoDangle Quiet (subsystemParse env sub mode doc mapping) w (fun _ v => Sound ext v) := by
  obtain ⟨⟨live, hc⟩, hd⟩ := h
  refine ((subsystemParse_does hc).and (subsystemParse_descriptors hc hd)).imp ?_
  intro _ v hv
  obtain ⟨⟨hq, lost, hcv⟩, hdv⟩ := hv
  exact ⟨hq, ⟨_, hcv⟩, hdv⟩

theorem parseDump_sound {errCnt : Nat} (h : Sound ext w) :
    Runs NoDangle (parseDump errCnt) w (fun _ v => Sound ext v) := by
  unfold parseDump
  refine (h.keep alloc_idle).bind ?_
  intro ok v hv
  cases ok with
  | true =>
    have hi : Idle v { v with
        outroot := v.outroot ++ [("errors", .scalar (toString errCnt))] } :=
      { Idle.refl v with next := Nat.le_refl _ }
    exact hv.of_idle hi rfl
  | false => exact (hv.keep nbErr_idle).bind (fun _ _ hu => hu)

/-- `parse` keeps the world sound, whatever it is given. -/
theorem parseAnswer_sound {buf : Bytes} (h : Sound ext w) :
    Runs NoDangle (parseAnswer env load buf) w (fun _ v => Sound ext v) := by
  have hempty : Idle w { w with outroot := [] } := { Idle.refl w with next := Nat.le_refl _ }
  have h := h.of_idle hempty rfl
  unfold parseAnswer
  rw [Runs.bind_iff, Runs.modify_iff]
  refine (h.keep (allCalls_idle (fun _ => alloc_idle) 3)).bind ?_
  intro ok v hv
  cases ok with
  | false => exact (hv.keep nbErr_idle).bind (fun _ _ hu => hu)
  | true =>
    refine (hv.keep alloc_idle).bind ?_
    intro ok v hv
    cases ok with
    | false => exact (hv.keep nbErr_idle).bind (fun _ _ hu => parseDump_sound hu)
    | true =>
      cases hl : load buf with
      | none => exact (hv.keep nbErr_idle).bind (fun _ _ hu => parseDump_sound hu)
      | some doc =>
        simp only [Bool.not_true, Bool.false_eq_true, if_false]
        split
        · rename_i pairs hroot
          have hdoc := parseDocument_steadfast sound_steadfast (C := fun _ _ _ _ => True)
            (fun sub mode mapping w hw _ => subsystemParse_sound env doc sub mode mapping hw)
            hv (documentMeets_of (fun _ _ _ _ => trivial))
          unfold parseDocument at hdoc
          rw [hroot] at hdoc
          exact Runs.bind hdoc (fun _ _ hu => parseDump_sound hu.2)
        · exact hv

theorem poll_sound {a : Addr} {recv : Recv} (h : Sound ext w) :
    Runs NoDangle (poll env a recv) w (fun _ v => Sound ext v) := by
  obtain ⟨hc, hd⟩ := h
  exact (poll_keeps consistent_invariant hc).and (poll_descriptors hc.choose_spec hd)

theorem Sound.congr {ext' : List Nat} (h : Sound ext w) (he : ∀ x ≠ 0, x ∈ ext' ↔ x ∈ ext) :
    Sound ext' w :=
  ⟨h.1, h.2.congr he⟩

/-- A descriptor that is opened was not open, so that nobody owns it. -/
theorem openFd_sound (h : Sound ext w) :
    Runs E openFd w (fun r v => Sound (r.toList ++ ext) v ∧ ∀ fd, r = some fd → fd ≠ 0 → fd ∉ ext) := by
  unfold openFd
  refine (syscall_takes.and (syscall_idle (E := E))).bind ?_
  intro ok v hv
  obtain ⟨⟨-, hv⟩, hi, -⟩ := hv
  have hs : Sound ext v := h.of_idle hi (by rw [hv])
  cases ok with
  | false => exact ⟨hs, fun fd hfd => (by cases hfd)⟩
  | true =>
    have hfree := lowestFd_free v.openFds
    have hopen : Idle v { v with openFds := lowestFd v.openFds :: v.openFds } :=
      { Idle.refl v with next := Nat.le_refl _ }
    obtain ⟨⟨live, hc⟩, hd⟩ := hs
    refine ⟨⟨⟨live, hopen.consistent hc⟩, hd.acquire hfree (fun x _ => List.mem_cons)⟩, ?_⟩
    intro fd hfd hz hx
    cases hfd
    exact hfree ((hd.open_iff _ hz).mpr (.inl hx))

theorem Sound.close {ext' : List Nat} (h : Sound ext w) (fds : List Nat) (hfds : ∀ fd ∈ fds, fd ∈ ext)
    (he : ∀ x ≠ 0, x ∈ ext' ↔ x ∉ fds ∧ x ∈ ext) : Sound ext' (w.close fds) := by
  obtain ⟨⟨live, hc⟩, hd⟩ := h
  exact ⟨⟨live, (w.close_idle fds).consistent hc⟩, hd.release hfds he⟩

theorem parseNew_sound {fdin fdout : Option Nat} (h : Sound ext w) :
    Runs NoDangle (parseNew fdin fdout) w (fun ok v => Sound ext v ∧
      (ok = true → fdin.isSome ∧ fdout.isSome)) := by
  have herr : ∀ {v : World} {msg : Text}, Sound ext v →
      Runs NoDangle (nbErr msg >>= fun _ => pure false : M Bool) v (fun ok v => Sound ext v ∧
        (ok = true → fdin.isSome ∧ fdout.isSome)) := by
    intro v msg hv
    refine (hv.keep nbErr_idle).bind ?_
    intro _ u hu
    exact ⟨hu, fun h => (by cases h)⟩
  unfold parseNew
  split
  · refine (h.keep alloc_idle).bind ?_
    intro ok v hv
    cases ok with
    | true => exact ⟨hv, fun _ => ⟨rfl, rfl⟩⟩
    | false => exact herr hv
  · exact herr h

end Worlds

section Owners

/-- The descriptors of a context, each once. -/
def pairFds (fdin fdout : Nat) : List Nat := if fdin = fdout then [fdin] else [fdin, fdout]

def Conn.fds (c : Conn) : List Nat := pairFds c.fdin c.fdout

/-- The descriptors that are the server's. -/
def Server.held (s : Server) : List Nat :=
  s.eptk.toList ++ s.conns.flatMap Conn.fds ++ s.listeners

/-- What the server holds, it holds once, and it was not open before; a number stands for one
client. -/
structure Server.Apart (given : List Nat) (s : Server) : Prop where
  own : ∀ fd ≠ 0, s.held.count fd ≤ 1
  apart : ∀ fd ≠ 0, fd ∈ s.held → fd ∉ given
  clients : (s.conns.map Conn.client).Nodup
  known : ∀ c ∈ s.conns, c.client < s.clients.length

/-- Every open descriptor but 0 has one owner: it was `given`, or the server holds it, or
else it is the socket of an iface. -/
structure Server.Owned (given : List Nat) (s : Server) : Prop extends s.Apart given where
  world : Sound (given ++ s.held) s.world

theorem mem_pairFds {fdin fdout x : Nat} : x ∈ pairFds fdin fdout ↔ x = fdin ∨ x = fdout := by
  unfold pairFds
  split
  · rename_i he
    simp [he]
  · simp

theorem count_pairFds (fdin fdout x : Nat) : (pairFds fdin fdout).count x ≤ 1 := by
  unfold pairFds
  split
  · exact List.nodup_iff_count_le_one.mp (List.nodup_singleton _) x
  · rename_i hne
    exact List.nodup_iff_count_le_one.mp (by simp [hne]) x

theorem Conn.mem_fds {c : Conn} {x : Nat} : x ∈ c.fds ↔ x = c.fdin ∨ x = c.fdout := mem_pairFds

/-- A context closes each of its descriptors once. -/
theorem parseFree_run (fdin fdout : Nat) (w : World) :
    parseFree fdin fdout w = .ok ((), w.close (pairFds fdin fdout)) := by
  unfold parseFree pairFds
  rw [bind_run (closeFd_run fdin w)]
  by_cases he : fdout = fdin
  · rw [if_neg (not_not.mpr he), if_pos he.symm]
    rfl
  · rw [if_pos he, if_neg (Ne.symm he), closeFd_run, World.close_close]
    rfl

/-- The server with another world that owns as much. -/
theorem Server.Owned.inWorld (h : s.Owned given) (hw : Sound (given ++ s.held) w) :
    Server.Owned given { s with world := w } :=
  { h with world := hw }

/-- A new context with descriptors of its own. -/
theorem Server.Apart.track {fdin fdout : Nat} {input : Input} (h : s.Apart given)
    (hw : Sound (fdin :: fdout :: (given ++ s.held)) s.world)
    (hin : fdin ≠ 0 → fdin ∉ given ++ s.held) (hout : fdout ≠ 0 → fdout ∉ given ++ s.held) :
    (s.track fdin fdout input).Owned given := by
  have hmem : ∀ x, x ∈ (s.track fdin fdout input).held ↔ x = fdin ∨ x = fdout ∨ x ∈ s.held := by
    intro x
    simp only [Server.held, Server.track, List.flatMap_append, List.flatMap_singleton,
      List.mem_append, Conn.mem_fds]
    tauto
  have hcount : ∀ x, (s.track fdin fdout input).held.count x =
      s.held.count x + (pairFds fdin fdout).count x := by
    intro x
    simp only [Server.held, Server.track, List.flatMap_append, List.flatMap_singleton,
      List.count_append, Conn.fds]
    omega
  have hnew : ∀ x ≠ 0, x = fdin ∨ x = fdout → x ∉ given ++ s.held := by
    intro x hz hx
    rcases hx with rfl | rfl
    · exact hin hz
    · exact hout hz
  refine ⟨⟨?_, ?_, ?_, ?_⟩, ?_⟩
  · intro x hz
    refine (hcount x).trans_le ?_
    by_cases hx : x = fdin ∨ x = fdout
    · have hnone : s.held.count x = 0 :=
        List.count_eq_zero.mpr (fun hm => hnew x hz hx (List.mem_append_right _ hm))
      have hone := count_pairFds fdin fdout x
      omega
    · have hnone : (pairFds fdin fdout).count x = 0 :=
        List.count_eq_zero.mpr (fun hm => hx (mem_pairFds.mp hm))
      have hone := h.own x hz
      omega
  · intro x hz hx
    rcases (hmem x).mp hx with rfl | rfl | hx
    · exact fun hg => hin hz (List.mem_append_left _ hg)
    · exact fun hg => hout hz (List.mem_append_left _ hg)
    · exact h.apart x hz hx
  · simp only [Server.track, List.map_append]
    refine List.nodup_append.mpr ⟨h.clients, List.nodup_singleton _, ?_⟩
    intro n hn m hm he
    obtain ⟨c, hc, rfl⟩ := List.mem_map.mp hn
    rw [List.map_singleton, List.mem_singleton] at hm
    exact absurd (h.known c hc) (by rw [he, hm]; exact Nat.lt_irrefl _)
  · intro c hc
    simp only [Server.track, List.length_append, List.length_singleton] at hc ⊢
    rcases List.mem_append.mp hc with hc | hc
    · exact Nat.lt_succ_of_lt (h.known c hc)
    · rw [List.mem_singleton.mp hc]
      exact Nat.lt_succ_self _
  · refine hw.congr (fun x _ => ?_)
    rw [List.mem_append, hmem x]
    simp only [List.mem_cons, List.mem_append]
    tauto

/-- Whoever holds less, and the world with it, still owns what it holds. -/
theorem Server.Apart.shrink (h : s.Apart given) (hsub : t.held.Sublist s.held)
    (hconns : t.conns.Sublist s.conns) (hk : t.clients = s.clients) : t.Apart given where
  own := fun x hz => (hsub.count_le x).trans (h.own x hz)
  apart := fun x hz hx => h.apart x hz (hsub.subset hx)
  clients := h.clients.sublist (hconns.map _)
  known := fun c hc => by
    rw [hk]
    exact h.known c (hconns.subset hc)

/-- The context of a client is the only one with its number. -/
theorem Server.Apart.split (h : s.Apart given) {c : Conn} (hc : c ∈ s.conns) :
    ∃ before after, s.conns = before ++ c :: after ∧
      s.conns.filter (fun d => d.client ≠ c.client) = before ++ after := by
  obtain ⟨before, after, he⟩ := List.mem_iff_append.mp hc
  have hn := h.clients
  rw [he, List.map_append, List.map_cons, List.nodup_append, List.nodup_cons] at hn
  refine ⟨before, after, he, ?_⟩
  have hkeep : ∀ ds : List Conn, (∀ d ∈ ds, d.client ≠ c.client) →
      ds.filter (fun d => d.client ≠ c.client) = ds :=
    fun ds hds => List.filter_eq_self.mpr (fun d hd => decide_eq_true (hds d hd))
  rw [he, List.filter_append, List.filter_cons_of_neg (by simp), hkeep before, hkeep after]
  · intro d hd hde
    exact hn.2.1.1 (hde ▸ List.mem_map_of_mem hd)
  · intro d hd
    exact hn.2.2 d.client (List.mem_map_of_mem hd) c.client List.mem_cons_self

/-- Without a listening socket the server holds all else. -/
theorem Server.Apart.mem_unlisten (h : s.Apart given) {fd : Nat} (hl : fd ∈ s.listeners) {x : Nat}
    (hz : x ≠ 0) : x ∈ (s.unlisten fd).held ↔ x ≠ fd ∧ x ∈ s.held := by
  have hone := h.own x hz
  simp only [Server.held, List.count_append] at hone
  simp only [Server.held, Server.unlisten, List.mem_append, List.mem_filter, decide_eq_true_eq]
  constructor
  · intro hx
    rcases hx with hx | hx
    · refine ⟨fun he => ?_, .inl hx⟩
      have hc₁ : 0 < (s.eptk.toList ++ s.conns.flatMap Conn.fds).count x :=
        List.count_pos_iff.mpr (List.mem_append.mpr hx)
      have hc₂ : 0 < s.listeners.count x := List.count_pos_iff.mpr (he ▸ hl)
      rw [List.count_append] at hc₁
      omega
    · exact ⟨hx.2, .inr hx.1⟩
  · intro hx
    exact hx.2.imp_right (fun hm => ⟨hm, hx.1⟩)

/-- Without a context the server holds all else. -/
theorem Server.Apart.mem_drop (h : s.Apart given) {c : Conn} (hc : c ∈ s.conns) {x : Nat}
    (hz : x ≠ 0) : x ∈ (s.drop c).held ↔ x ∉ c.fds ∧ x ∈ s.held := by
  obtain ⟨before, after, he, hf⟩ := h.split hc
  rw [he] at hf
  have hone := h.own x hz
  simp only [Server.held, he, List.flatMap_append, List.flatMap_cons, List.count_append] at hone
  simp only [Server.held, Server.drop, he, hf, List.flatMap_append, List.flatMap_cons, List.mem_append]
  by_cases hx : x ∈ c.fds
  · have hpos := List.count_pos_iff.mpr hx
    have hrest : ∀ l : List Nat, l.count x = 0 → x ∉ l := fun l => List.count_eq_zero.mp
    simp only [hx, not_true_eq_false, false_and, iff_false, not_or]
    exact ⟨⟨hrest _ (by omega), hrest _ (by omega), hrest _ (by omega)⟩, hrest _ (by omega)⟩
  · simp [hx]

end Owners

section Serving

theorem Server.Owned.shrink (h : s.Owned given) (hsub : t.held.Sublist s.held)
    (hconns : t.conns.Sublist s.conns) (hk : t.clients = s.clients)
    (hw : Sound (given ++ t.held) t.world) : t.Owned given :=
  ⟨h.toApart.shrink hsub hconns hk, hw⟩

/-- `netsock_callback`: the new descriptor is the context's, or closed again. -/
theorem netsockCallback_owned {input : Input} (h : s.Owned given) :
    Runs NoDangle (netsockCallback input) s (fun _ t => t.Owned given ∧
      t.listeners = s.listeners) := by
  have herr : ∀ {w : World} {msg : Text}, Sound (given ++ s.held) w →
      Runs NoDangle (inWorld (nbErr msg) >>= fun _ => pure 1 : S Nat) { s with world := w }
        (fun _ t => t.Owned given ∧ t.listeners = s.listeners) := by
    intro w msg hw
    rw [Runs.bind_iff, inWorld_iff]
    refine (hw.keep nbErr_idle).imp ?_
    intro _ v hv
    exact ⟨h.inWorld hv, rfl⟩
  unfold netsockCallback
  rw [Runs.bind_iff, inWorld_iff]
  refine (openFd_sound h.world).imp ?_
  intro r w hr
  cases r with
  | none => exact herr hr.1
  | some fd =>
    obtain ⟨hw, hnew⟩ := hr
    have hw : Sound (fd :: (given ++ s.held)) w := hw
    have hnew := hnew fd rfl
    simp only
    by_cases hlow : fd < 1
    · rw [if_pos hlow]
      refine herr (hw.congr (fun x hz => ?_))
      rw [List.mem_cons]
      exact ⟨.inr, fun hx => hx.resolve_left (by omega)⟩
    have hz : fd ≠ 0 := by omega
    have hclose : ∀ {w : World}, Sound (fd :: (given ++ s.held)) w →
        Runs NoDangle (inWorld (nbErr "") >>= fun _ => inWorld (closeFd fd) >>= fun _ => pure 1 :
          S Nat) { s with world := w } (fun _ t => t.Owned given ∧ t.listeners = s.listeners) := by
      intro w hw
      rw [Runs.bind_iff, inWorld_iff]
      refine (hw.keep nbErr_idle).imp ?_
      intro _ v hv
      rw [Runs.bind_iff, inWorld_iff]
      refine Runs.of_ok (closeFd_run fd v) ⟨h.inWorld (hv.close [fd] ?_ ?_), rfl⟩
      · simp
      · intro x _
        rw [List.mem_singleton, List.mem_cons]
        constructor
        · exact fun hx => ⟨fun he => hnew hz (he ▸ hx), .inr hx⟩
        · exact fun hx => hx.2.resolve_left hx.1
    rw [if_neg hlow, Runs.bind_iff, inWorld_iff]
    refine (parseNew_sound hw).imp ?_
    intro ok w hw
    cases ok with
    | false => exact hclose hw.1
    | true =>
      simp only [Bool.not_true, Bool.false_eq_true, if_false]
      rw [Runs.bind_iff, inWorld_iff]
      refine (hw.1.keep syscall_idle).imp ?_
      intro ok v hv
      cases ok with
      | false => exact hclose hv
      | true =>
        refine ⟨Server.Apart.track (s := { s with world := v }) { h.toApart with } ?_ ?_ ?_, rfl⟩
        · refine hv.congr (fun x _ => ?_)
          simp [Server.held]
        · exact hnew
        · exact hnew

/-- Documents change the world and the history. -/
theorem parseAll_owned {c : Conn} {bufs : List Bytes} (h : s.Owned given) :
    Runs NoDangle (parseAll env load c bufs) s (fun _ t => t.Owned given ∧ t.conns = s.conns ∧
      t.listeners = s.listeners ∧ t.eptk = s.eptk) := by
  induction bufs generalizing s with
  | nil => exact ⟨h, rfl, rfl, rfl⟩
  | cons buf bufs ih =>
    unfold parseAll
    rw [Runs.bind_iff, inWorld_iff]
    refine (parseAnswer_sound h.world).imp ?_
    intro reply w hw
    rw [Runs.bind_iff, Runs.modify_iff]
    exact ih { h with world := hw }

/-- A context that is dropped closes what it held. -/
theorem drop_owned {c : Conn} (h : s.Owned given) (hc : c ∈ s.conns) :
    Server.Owned given { s.drop c with world := s.world.close c.fds } := by
  have hheld : ∀ x ∈ c.fds, x ∈ s.held := by
    intro x hx
    refine List.mem_append_left _ (List.mem_append_right _ ?_)
    exact List.mem_flatMap.mpr ⟨c, hc, hx⟩
  have hsub : (s.drop c).conns.Sublist s.conns := List.filter_sublist
  refine h.shrink ?_ hsub rfl (h.world.close c.fds (fun x hx => List.mem_append_right _ (hheld x hx)) ?_)
  · exact ((List.Sublist.refl _).append (hsub.flatMap _)).append (List.Sublist.refl _)
  · intro x hz
    have hmem : x ∈ Server.held { s.drop c with world := s.world.close c.fds } ↔
        x ∉ c.fds ∧ x ∈ s.held := h.mem_drop hc hz
    have hgiven : x ∈ c.fds → x ∉ given := fun hx => h.apart x hz (hheld x hx)
    rw [List.mem_append, List.mem_append, hmem]
    tauto

theorem Server.advance_held (c : Conn) (parse : Parse) (input : Input) :
    (s.advance c parse input).held = s.held := by
  simp only [Server.held, Server.advance, List.flatMap_map]
  congr 2
  refine congrArg (List.flatMap · s.conns) (funext fun d => ?_)
  by_cases hd : d.client = c.client
  · rw [if_pos hd]
    rfl
  · rw [if_neg hd]

theorem Server.advance_clients (c : Conn) (parse : Parse) (input : Input) :
    (s.advance c parse input).conns.map Conn.client = s.conns.map Conn.client := by
  simp only [Server.advance, List.map_map]
  refine List.map_congr_left (fun d _ => ?_)
  by_cases hd : d.client = c.client <;> simp [hd]

theorem Server.Owned.advance (h : s.Owned given) (c : Conn) (parse : Parse) (input : Input) :
    (s.advance c parse input).Owned given := by
  have hheld := s.advance_held c parse input
  have hclients := s.advance_clients c parse input
  refine ⟨⟨?_, ?_, ?_, ?_⟩, ?_⟩
  · rw [hheld]
    exact h.own
  · rw [hheld]
    exact h.apart
  · rw [hclients]
    exact h.clients
  · intro d hd
    have hm : d.client ∈ s.conns.map Conn.client := hclients ▸ List.mem_map_of_mem hd
    obtain ⟨e, he, hde⟩ := List.mem_map.mp hm
    rw [← hde]
    exact h.known e he
  · rw [hheld]
    exact h.world

/-- `parse_callback` of a registered context -/
theorem readable_owned {c : Conn} (h : s.Owned given) (hc : c ∈ s.conns) :
    Runs NoDangle (readable env load c) s (fun _ t => t.Owned given) := by
  unfold readable
  refine (parseAll_owned h).bind ?_
  intro _ t ht
  obtain ⟨ht, hconns, -⟩ := ht
  split
  · exact { ht with }
  · exact ht.advance c _ _
  · rw [Runs.bind_iff, Runs.modify_iff, inWorld_iff]
    exact Runs.of_ok (parseFree_run _ _ _) (drop_owned ht (hconns ▸ hc))

/-- A listening socket that is dropped is closed. -/
theorem unlisten_owned {fd : Nat} (h : s.Owned given) (hl : fd ∈ s.listeners) :
    Server.Owned given { s.unlisten fd with world := s.world.close [fd] } := by
  have hheld : fd ∈ s.held := List.mem_append_right _ hl
  have hsub : (s.unlisten fd).listeners.Sublist s.listeners := List.filter_sublist
  refine h.shrink ((List.Sublist.refl _).append hsub) (List.Sublist.refl _) rfl
    (h.world.close [fd] ?_ ?_)
  · intro x hx
    exact List.mem_append_right _ (List.mem_singleton.mp hx ▸ hheld)
  · intro x hz
    have hmem : x ∈ Server.held { s.unlisten fd with world := s.world.close [fd] } ↔
        x ≠ fd ∧ x ∈ s.held := h.mem_unlisten hl hz
    have hgiven : x = fd → x ∉ given := fun he => h.apart x hz (he ▸ hheld)
    rw [List.mem_append, List.mem_append, hmem, List.mem_singleton]
    tauto

/-- One turn of the loop keeps every descriptor with its owner. -/
theorem serve_owned {ready : Ready} (h : s.Owned given) :
    Runs NoDangle (serve env load ready) s (fun _ t => t.Owned given) := by
  unfold serve
  rw [Runs.bind_iff, Runs.get_iff]
  split
  · exact h
  cases ready with
  | client listener input =>
    simp only
    split
    · rename_i hl
      refine (netsockCallback_owned h).bind ?_
      intro rc t ht
      obtain ⟨ht, hlisten⟩ := ht
      split
      · rw [Runs.bind_iff, Runs.modify_iff, inWorld_iff]
        exact Runs.of_ok (closeFd_run _ _) (unlisten_owned ht (hlisten ▸ hl))
      · exact ht
    · exact h
  | input fd =>
    simp only
    split
    · exact h
    · rename_i c hf
      exact readable_owned h (List.mem_of_find?_eq_some hf)
  | packet iface recv =>
    simp only
    rw [inWorld_iff]
    exact (poll_sound h.world).imp (fun _ w hw => h.inWorld hw)

end Serving

section Setup

/-- The start of a descriptor's life: the server comes to hold it. -/
theorem Server.Apart.hold {fd : Nat} (h : s.Apart given) (hw : Sound (fd :: (given ++ s.held)) t.world)
    (hnew : fd ≠ 0 → fd ∉ given ++ s.held) (hheld : t.held.Perm (fd :: s.held))
    (hconns : t.conns = s.conns) (hclients : t.clients = s.clients) : t.Owned given := by
  refine ⟨⟨?_, ?_, ?_, ?_⟩, ?_⟩
  · intro x hz
    rw [hheld.count_eq, List.count_cons]
    by_cases hx : fd = x
    · have hnone : s.held.count x = 0 :=
        List.count_eq_zero.mpr (fun hm => hnew (hx ▸ hz) (List.mem_append_right _ (hx ▸ hm)))
      simp [hx, hnone]
    · simpa [hx] using h.own x hz
  · intro x hz hx
    rcases List.mem_cons.mp (hheld.mem_iff.mp hx) with rfl | hx
    · exact fun hg => hnew hz (List.mem_append_left _ hg)
    · exact h.apart x hz hx
  · rw [hconns]
    exact h.clients
  · rw [hconns, hclients]
    exact h.known
  · refine hw.congr (fun x _ => ?_)
    rw [List.mem_append, hheld.mem_iff]
    simp only [List.mem_cons, List.mem_append]
    tauto

/-- The descriptors that are open, the last one opened first. -/
def Opened (fds : List Nat) (w : World) : Prop := w.openFds = fds

instance opened {fds : List Nat} : Policy env (fun _ => True) (Opened fds) where
  dangling := fun _ => trivial
  nullName := trivial
  nullMember := trivial
  beyond := fun h hb => hb.openFds.trans h
  forgetField := fun _ h => h
  forgetMemref := fun _ h => h
  forgetRule := fun _ h => h
  makeField := fun _ h _ => h
  makeMemref := fun _ h _ => h
  makeRule := fun _ h _ => h
  countField := fun _ h _ => h
  countState := fun _ h _ _ => h
  countRule := fun _ h _ => h
  changeIface := fun h _ _ _ => h

/-- What opens nothing leaves open what was. -/
theorem opens_nothing {m : M α} [ho : Obeys .sample (fun _ => True) (Opened w.openFds) m] :
    Runs (fun _ => True) m w (fun _ v => v.openFds = w.openFds) :=
  ho.keeps.runs rfl

theorem openFd_opens : Runs E openFd w (fun r v =>
    (∀ fd, r = some fd → fd = lowestFd w.openFds) ∧ v.openFds = r.toList ++ w.openFds) := by
  unfold openFd
  refine syscall_takes.bind ?_
  intro ok v hv
  obtain ⟨-, hv⟩ := hv
  have ho : v.openFds = w.openFds := by rw [hv]
  cases ok with
  | false => exact ⟨fun fd hfd => (by cases hfd), ho⟩
  | true =>
    refine ⟨fun fd hfd => ?_, ?_⟩
    · cases hfd
      rw [ho]
    · change lowestFd v.openFds :: v.openFds = _
      rw [ho]
      rfl

instance parseNew_opens {fds : List Nat} {fdin fdout : Option Nat} :
    Obeys .sample (fun _ => True) (Opened fds) (parseNew fdin fdout) := by
  unfold parseNew
  split <;> infer_instance

/-- What a setup leaves open that nobody owns: nothing, or, where it fails, the copies of the
standard descriptors that no context took, or the socket that could not be made to listen. -/
inductive Leaked (given : List Nat) (t : Server) : Bool → List Nat → Prop
  | nothing {ok : Bool} : Leaked given t ok []
  | copies {fd : Nat} {fdin fdout : Option Nat} (eptk : t.eptk = some fd) (conns : t.conns = [])
      (listeners : t.listeners = []) (input : ∀ x, fdin = some x → x = lowestFd (fd :: given))
      (output : ∀ x, fdout = some x → x = lowestFd (fdin.toList ++ fd :: given)) :
      Leaked given t false (fdout.toList ++ fdin.toList)
  | socket {fd : Nat} {fds : List Nat} (conns : t.conns ≠ []) (last : t.world.openFds = fd :: fds)
      (lowest : fd = lowestFd fds) (new : fd ≠ 0 → fd ∉ given ++ t.held) : Leaked given t false [fd]

theorem Leaked.eq_nil {leaked : List Nat} (h : Leaked given t true leaked) : leaked = [] := by
  cases h
  rfl

/-- What was leaked depends on the open descriptors only. -/
theorem Leaked.inWorld {ok : Bool} {leaked : List Nat} (h : Leaked given { s with world := w } ok leaked)
    (ho : v.openFds = w.openFds) : Leaked given { s with world := v } ok leaked := by
  cases h with
  | nothing => exact .nothing
  | copies eptk conns listeners input output => exact .copies eptk conns listeners input output
  | socket conns last lowest new => exact .socket conns (ho.trans last) lowest new

/-- What a part of the setup leaves: every descriptor with its owner, but for those that
it leaks where it fails. -/
def SetUp (given : List Nat) (ok : Bool) (t : Server) : Prop :=
  ∃ leaked, t.Owned (leaked ++ given) ∧ Leaked given t ok leaked

theorem SetUp.of_owned (h : t.Owned given) {ok : Bool} : SetUp given ok t := ⟨[], h, .nothing⟩

theorem SetUp.owned (h : SetUp given true t) : t.Owned given := by
  obtain ⟨leaked, h, hl⟩ := h
  cases hl.eq_nil
  exact h

/-- A descriptor that nobody closes. -/
theorem Server.Apart.leak {leaked : List Nat} (h : s.Apart given)
    (hw : Sound (leaked ++ (given ++ s.held)) w)
    (hnew : ∀ fd ∈ leaked, fd ≠ 0 → fd ∉ given ++ s.held) :
    Server.Owned (leaked ++ given) { s with world := w } where
  own := h.own
  apart := by
    intro fd hz hx hg
    rcases List.mem_append.mp hg with hg | hg
    · exact hnew fd hg hz (List.mem_append_right _ hx)
    · exact h.apart fd hz hx hg
  clients := h.clients
  known := h.known
  world := by
    rw [List.append_assoc]
    exact hw

theorem setup_err {leaked : List Nat} {msg : Text} (h : s.Apart given)
    (hw : Sound (leaked ++ (given ++ s.held)) w)
    (hnew : ∀ fd ∈ leaked, fd ≠ 0 → fd ∉ given ++ s.held)
    (hl : Leaked given { s with world := w } false leaked) :
    Runs NoDangle (inWorld (nbErr msg) >>= fun _ => pure false : S Bool) { s with world := w }
      (SetUp given) := by
  rw [Runs.bind_iff, inWorld_iff]
  refine ((hw.keep nbErr_idle).and opens_nothing).imp ?_
  intro _ v hv
  exact ⟨leaked, h.leak hv.1 hnew, hl.inWorld hv.2⟩

/-- A part of the setup that fails and leaks nothing. -/
theorem setup_err_nothing {msg : Text} (h : s.Apart given) (hw : Sound (given ++ s.held) w) :
    Runs NoDangle (inWorld (nbErr msg) >>= fun _ => pure false : S Bool) { s with world := w }
      (SetUp given) := by
  have hnone : ∀ fd ∈ ([] : List Nat), fd ≠ 0 → fd ∉ given ++ s.held := fun _ hfd => (by cases hfd)
  exact setup_err h hw hnone .nothing

theorem setup_err_conns {msg : Text} :
    Runs NoDangle (inWorld (nbErr msg) >>= fun _ => pure false : S Bool) { s with world := w }
      (fun _ t => t.conns = s.conns) :=
  rfl

theorem netsockListen_owned (h : s.Owned given) (hc : s.conns ≠ []) :
    Runs NoDangle netsockListen s (fun ok t => SetUp given ok t ∧ t.conns = s.conns) := by
  unfold netsockListen
  rw [Runs.bind_iff, inWorld_iff]
  refine ((openFd_sound h.world).and (openFd_opens (E := NoDangle))).imp ?_
  intro r w hr
  obtain ⟨⟨hw, hnew⟩, hlow, ho⟩ := hr
  have herr : ∀ {leaked : List Nat} {v : World} {msg : Text}, Sound (leaked ++ (given ++ s.held)) v →
      (∀ fd ∈ leaked, fd ≠ 0 → fd ∉ given ++ s.held) → Leaked given { s with world := v } false leaked →
      Runs NoDangle (inWorld (nbErr msg) >>= fun _ => pure false : S Bool) { s with world := v }
        (fun ok t => SetUp given ok t ∧ t.conns = s.conns) :=
    fun hv hnew hl => (setup_err h.toApart hv hnew hl).and setup_err_conns
  cases r with
  | none => exact (setup_err_nothing h.toApart hw).and setup_err_conns
  | some fd =>
    have hleak : ∀ x ∈ [fd], x ≠ 0 → x ∉ given ++ s.held := by
      simpa using hnew fd rfl
    have hsocket : Leaked given { s with world := w } false [fd] :=
      .socket hc ho (hlow fd rfl) (hnew fd rfl)
    simp only
    split
    · exact herr hw hleak hsocket
    rw [Runs.bind_iff, inWorld_iff]
    refine ((hw.keep (allCalls_idle (fun _ => syscall_idle) 5)).and opens_nothing).imp ?_
    intro ok v hv
    obtain ⟨hv, hov⟩ := hv
    cases ok with
    | false => exact herr hv hleak (hsocket.inWorld hov)
    | true =>
      refine ⟨.of_owned (Server.Apart.hold (s := s) (t := Server.listen { s with world := v } fd)
        h.toApart hv (hnew fd rfl) ?_ rfl rfl), rfl⟩
      simp only [Server.held, Server.listen, ← List.append_assoc]
      exact List.perm_append_singleton _ _

theorem netsockEach_owned {n : Nat} (h : s.Owned given) (hc : s.conns ≠ []) :
    Runs NoDangle (netsockEach n) s (fun ok t => SetUp given ok t ∧ t.conns = s.conns) := by
  induction n generalizing s with
  | zero => exact ⟨.of_owned h, rfl⟩
  | succ n ih =>
    unfold netsockEach
    refine (netsockListen_owned h hc).bind ?_
    intro ok t ht
    obtain ⟨ht, hct⟩ := ht
    cases ok with
    | true => exact (ih ht.owned (hct ▸ hc)).imp (fun _ _ hu => ⟨hu.1, hu.2.trans hct⟩)
    | false => exact ⟨ht, hct⟩

theorem netsock_owned {addresses : Option Nat} (h : s.Owned given) (hc : s.conns ≠ []) :
    Runs NoDangle (netsock addresses) s (fun ok t => SetUp given ok t ∧ t.conns = s.conns) := by
  cases addresses with
  | none =>
    exact (setup_err_nothing (s := s) h.toApart h.world).and setup_err_conns
  | some n => exact netsockEach_owned h hc

theorem netsockAll_owned {options : List (Option Nat)} (h : s.Owned given) (hc : s.conns ≠ []) :
    Runs NoDangle (netsockAll options) s (SetUp given) := by
  induction options generalizing s with
  | nil => exact .of_owned h
  | cons addresses rest ih =>
    unfold netsockAll
    refine (netsock_owned h hc).bind ?_
    intro ok t ht
    obtain ⟨ht, hct⟩ := ht
    cases ok with
    | true => exact ih ht.owned (hct ▸ hc)
    | false => exact ht

theorem start_owned (given : List Nat) (oom sys : List Bool) :
    (Server.start given oom sys).Owned given := by
  refine ⟨⟨?_, ?_, ?_, ?_⟩, ⟨0, consistent_start given oom sys⟩, ?_, ?_, ?_, ?_⟩
  · simp [Server.held, Server.start]
  · simp [Server.held, Server.start]
  · simp [Server.start]
  · simp [Server.start]
  · intro a i ha
    cases ha
  · intro a b i j ha
    cases ha
  · intro a i fd ha
    cases ha
  · intro fd _
    simp [Server.held, Server.start, World.start]

theorem setupParse_owned {stdin : Input} {options : List (Option Nat)} {fdin fdout : Option Nat}
    (h : s.Apart given) (hw : Sound (fdout.toList ++ (fdin.toList ++ (given ++ s.held))) s.world)
    (hin : ∀ fd, fdin = some fd → fd ≠ 0 → fd ∉ given ++ s.held)
    (hout : ∀ fd, fdout = some fd → fd ≠ 0 → fd ∉ fdin.toList ++ (given ++ s.held))
    (hl : Leaked given s false (fdout.toList ++ fdin.toList)) :
    Runs NoDangle (setupParse stdin options fdin fdout) s (SetUp given) := by
  have hleak : ∀ fd ∈ fdout.toList ++ fdin.toList, fd ≠ 0 → fd ∉ given ++ s.held := by
    intro fd hfd hz
    rcases List.mem_append.mp hfd with hfd | hfd
    · exact fun hx => hout fd (Option.mem_toList.mp hfd) hz (List.mem_append_right _ hx)
    · exact hin fd (Option.mem_toList.mp hfd) hz
  rw [← List.append_assoc] at hw
  unfold setupParse
  rw [Runs.bind_iff, inWorld_iff]
  refine ((parseNew_sound hw).and opens_nothing).imp ?_
  intro ok w hw
  obtain ⟨⟨hw, hok⟩, ho⟩ := hw
  have hl : Leaked given { s with world := w } false (fdout.toList ++ fdin.toList) := hl.inWorld ho
  cases ok with
  | false => exact setup_err (s := s) h hw hleak hl
  | true =>
    obtain ⟨hsin, hsout⟩ := hok rfl
    obtain ⟨fdin, rfl⟩ := Option.isSome_iff_exists.mp hsin
    obtain ⟨fdout, rfl⟩ := Option.isSome_iff_exists.mp hsout
    simp only
    rw [Runs.bind_iff, inWorld_iff]
    refine ((hw.keep syscall_idle).and opens_nothing).imp ?_
    intro ok v hv
    obtain ⟨hv, ho⟩ := hv
    cases ok with
    | false => exact setup_err (s := s) h hv hleak (hl.inWorld ho)
    | true =>
      simp only [Bool.not_true, Bool.false_eq_true, if_false]
      rw [Runs.bind_iff, Runs.modify_iff]
      refine netsockAll_owned (Server.Apart.track (s := { s with world := v }) { h with } ?_ ?_ ?_)
        (by simp [Server.track])
      · refine hv.congr (fun x _ => ?_)
        simp only [Option.toList_some, List.cons_append, List.nil_append, List.mem_cons]
        rw [or_left_comm]
        rfl
      · exact hin fdin rfl
      · exact fun hz hx => hout fdout rfl hz (List.mem_append_right _ hx)

/-- `main` up to its loop -/
theorem setup_owned (given : List Nat) (oom sys : List Bool) (stdin : Input)
    (options : List (Option Nat)) :
    Runs NoDangle (setup stdin options) (Server.start given oom sys) (SetUp given) := by
  have h := start_owned given oom sys
  unfold setup
  rw [Runs.bind_iff, inWorld_iff]
  refine ((h.world.keep syscall_idle).and opens_nothing).imp ?_
  intro ok w hw
  obtain ⟨hw, ho⟩ := hw
  cases ok with
  | false => exact setup_err_nothing (s := Server.start given oom sys) h.toApart hw
  | true =>
    simp only [Bool.not_true, Bool.false_eq_true, if_false]
    rw [Runs.bind_iff, inWorld_iff]
    refine ((openFd_sound hw).and (openFd_opens (E := NoDangle))).imp ?_
    intro r w₀ hr
    obtain ⟨⟨hw₀, hnew⟩, -, ho₀⟩ := hr
    cases r with
    | none =>
      exact setup_err_nothing (s := Server.start given oom sys) h.toApart hw₀
    | some fd =>
      -- the tracker holds its descriptor, then the standard descriptors are copied
      have ht := Server.Apart.hold (s := Server.start given oom sys)
        (t := { Server.start given oom sys with world := w₀, eptk := some fd })
        h.toApart hw₀ (hnew fd rfl) (List.Perm.refl _) rfl rfl
      have ho₀ : w₀.openFds = fd :: given := by
        rw [ho₀, ho]
        rfl
      simp only
      rw [Runs.bind_iff, Runs.modify_iff, Runs.bind_iff, inWorld_iff]
      refine ((openFd_sound ht.world).and (openFd_opens (E := NoDangle))).imp ?_
      intro fdin w₁ hin
      obtain ⟨⟨hw₁, hin⟩, hlow₁, ho₁⟩ := hin
      rw [Runs.bind_iff, inWorld_iff]
      refine ((openFd_sound hw₁).and (openFd_opens (E := NoDangle))).imp ?_
      intro fdout w₂ hout
      obtain ⟨⟨hw₂, hout⟩, hlow₂, -⟩ := hout
      refine setupParse_owned
        (s := { Server.start given oom sys with world := w₂, eptk := some fd })
        { ht.toApart with } hw₂ hin hout (.copies rfl rfl rfl (fun x hx => ?_) (fun x hx => ?_))
      · rw [hlow₁ x hx]
        exact congrArg lowestFd ho₀
      · rw [hlow₂ x hx, ho₁]
        exact congrArg (fun fds => lowestFd (fdin.toList ++ fds)) ho₀

end Setup

end Xdpacket
