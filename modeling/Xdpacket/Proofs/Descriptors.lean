import Xdpacket.Model.Server
import Xdpacket.Proofs.Liveness
import Xdpacket.Proofs.Teardown

namespace Xdpacket

variable {w v : World} {live : Multiset Ref} {env : Env} {doc : Document} {mapping : Pairs doc}
  {mode : ParseMode} {ext : List Nat} {a : Addr} {i : Iface} {n : Text}

/-- Which descriptors are open: those in `ext`, which others own, and the sockets of the
ifaces, all of them different. Descriptor 0 is left out: an `iface_new` that fails early
closes it, whoever owns it. -/
structure Descriptors (ext : List Nat) (w : World) : Prop where
  natural : ∀ a i, w.ifaces a = some i → 0 ≤ i.fd
  own : ∀ a b i j, w.ifaces a = some i → w.ifaces b = some j → i.fd = j.fd → i.fd ≠ 0 → a = b
  apart : ∀ a i (fd : Nat), w.ifaces a = some i → i.fd = fd → fd ≠ 0 → fd ∉ ext
  open_iff : ∀ fd : Nat, fd ≠ 0 →
    (fd ∈ w.openFds ↔ fd ∈ ext ∨ ∃ a i, w.ifaces a = some i ∧ i.fd = fd)

section Changes

/-- Ifaces that change keep their sockets. -/
theorem Descriptors.of_same (h : Descriptors ext w)
    (hi : SameKeys (fun i => (i.fd, i.name)) w.ifaces v.ifaces) (ho : v.openFds = w.openFds) :
    Descriptors ext v := by
  have hback : ∀ a i, v.ifaces a = some i → ∃ j, w.ifaces a = some j ∧ i.fd = j.fd := by
    intro a i ha
    obtain ⟨j, hj, hk⟩ := hi.evolves (a + 1) a (Nat.lt_succ_self a) i ha
    simp only [Prod.mk.injEq] at hk
    exact ⟨j, hj, hk.1⟩
  have hforth : ∀ a i, w.ifaces a = some i → ∃ j, v.ifaces a = some j ∧ j.fd = i.fd := by
    intro a i ha
    have hk := hi a
    rw [ha] at hk
    obtain ⟨j, hj, hf⟩ := Option.map_eq_some_iff.mp hk
    simp only [Prod.mk.injEq] at hf
    exact ⟨j, hj, hf.1⟩
  refine ⟨?_, ?_, ?_, ?_⟩
  · intro a i ha
    obtain ⟨j, hj, hf⟩ := hback a i ha
    rw [hf]
    exact h.natural a j hj
  · intro a b i j ha hb he hz
    obtain ⟨i', hi', hif⟩ := hback a i ha
    obtain ⟨j', hj', hjf⟩ := hback b j hb
    exact h.own a b i' j' hi' hj' (by rw [← hif, ← hjf, he]) (by rwa [← hif])
  · intro a i fd ha hf hz
    obtain ⟨j, hj, hif⟩ := hback a i ha
    exact h.apart a j fd hj (by rw [← hif, hf]) hz
  · intro fd hz
    rw [ho, h.open_iff fd hz]
    refine or_congr_right ⟨?_, ?_⟩
    · intro he
      obtain ⟨a, i, ha, hf⟩ := he
      obtain ⟨j, hj, hif⟩ := hforth a i ha
      exact ⟨a, j, hj, by rw [hif, hf]⟩
    · intro he
      obtain ⟨a, i, ha, hf⟩ := he
      obtain ⟨j, hj, hif⟩ := hback a i ha
      exact ⟨a, j, hj, by rw [← hif, hf]⟩

theorem Descriptors.of_idle (h : Descriptors ext w) (hi : Idle w v) (ho : v.openFds = w.openFds) :
    Descriptors ext v :=
  h.of_same (by rw [hi.ifaces]; exact .refl _ _) ho

instance descriptors : Policy env (fun _ => True) (Descriptors ext) where
  dangling := fun _ => trivial
  nullName := trivial
  nullMember := trivial
  beyond := fun h hb => h.of_same (by rw [hb.ifaces]; exact .refl _ _) hb.openFds
  forgetField := fun _ h => ⟨h.natural, h.own, h.apart, h.open_iff⟩
  forgetMemref := fun _ h => ⟨h.natural, h.own, h.apart, h.open_iff⟩
  forgetRule := fun _ h => ⟨h.natural, h.own, h.apart, h.open_iff⟩
  makeField := fun _ h _ => ⟨h.natural, h.own, h.apart, h.open_iff⟩
  makeMemref := fun _ h _ => ⟨h.natural, h.own, h.apart, h.open_iff⟩
  makeRule := fun _ h _ => ⟨h.natural, h.own, h.apart, h.open_iff⟩
  countField := fun _ h _ => ⟨h.natural, h.own, h.apart, h.open_iff⟩
  countState := fun _ h _ _ => ⟨h.natural, h.own, h.apart, h.open_iff⟩
  countRule := fun _ h _ => ⟨h.natural, h.own, h.apart, h.open_iff⟩
  changeIface := fun h hi hf hn => h.of_same (.modify hi (by rw [hf, hn])) rfl

/-- An iface goes and its socket is closed. -/
theorem Descriptors.drop (h : Descriptors ext w) (hi : w.ifaces a = some i)
    (hv : v.ifaces = Function.update w.ifaces a none)
    (ho : v.openFds = if i.fd = -1 then w.openFds
      else w.openFds.filter (fun fd : Nat => (fd : Int) ≠ i.fd)) : Descriptors ext v := by
  have hnat := h.natural a i hi
  rw [if_neg (by omega)] at ho
  have hother : ∀ b j, v.ifaces b = some j → b ≠ a ∧ w.ifaces b = some j := by
    intro b j hb
    rw [hv] at hb
    rcases of_updated hb with ⟨-, hnone⟩ | hb
    · cases hnone
    · exact hb
  refine ⟨?_, ?_, ?_, ?_⟩
  · exact fun b j hb => h.natural b j (hother b j hb).2
  · exact fun b c j k hb hc => h.own b c j k (hother b j hb).2 (hother c k hc).2
  · exact fun b j fd hb => h.apart b j fd (hother b j hb).2
  · intro fd hz
    rw [ho, List.mem_filter, h.open_iff fd hz, decide_eq_true_eq]
    constructor
    · intro hf
      obtain ⟨hext | ⟨b, j, hb, hj⟩, hne⟩ := hf
      · exact .inl hext
      · have hba : b ≠ a := by
          intro he
          rw [he, hi] at hb
          cases hb
          exact hne hj.symm
        exact .inr ⟨b, j, by rw [hv, Function.update_of_ne hba]; exact hb, hj⟩
    · intro hf
      rcases hf with hext | ⟨b, j, hb, hj⟩
      · exact ⟨.inl hext, fun he => h.apart a i fd hi he.symm hz hext⟩
      · obtain ⟨hne, hb⟩ := hother b j hb
        refine ⟨.inr ⟨b, j, hb, hj⟩, fun he => hne (h.own b a j i hb hi (by rw [hj, he]) ?_)⟩
        rw [hj]
        exact_mod_cast hz

/-- An early failure of `iface_new` closes descriptor 0 at most. -/
theorem Descriptors.refused (h : Descriptors ext w) (hr : Refused env n w v) :
    Descriptors ext v := by
  rcases hr.openFds with ho | ⟨-, ho⟩
  · exact h.of_idle hr.idle ho
  refine ⟨?_, ?_, ?_, ?_⟩
  · rw [hr.idle.ifaces]
    exact h.natural
  · rw [hr.idle.ifaces]
    exact h.own
  · rw [hr.idle.ifaces]
    exact h.apart
  · intro fd hz
    have hkeep : fd ∈ v.openFds ↔ fd ∈ w.openFds := by
      rw [ho, List.mem_filter, decide_eq_true_eq]
      exact and_iff_left (by exact_mod_cast hz)
    rw [hkeep, hr.idle.ifaces]
    exact h.open_iff fd hz

/-- A new iface gets a descriptor that was not open. -/
theorem Descriptors.opened (h : Descriptors ext w) (hnone : Fresh w) :
    Descriptors ext (w.openIface env n) := by
  have hcases : ∀ a i, (w.openIface env n).ifaces a = some i →
      a = w.next ∧ i.fd = (lowestFd w.openFds : Nat) ∨ a ≠ w.next ∧ w.ifaces a = some i := by
    intro a i ha
    rcases of_updated ha with ⟨rfl, hp⟩ | ⟨hne, ha⟩
    · cases hp
      exact .inl ⟨rfl, rfl⟩
    · exact .inr ⟨hne, ha⟩
  have hfree : ∀ a i, w.ifaces a = some i → i.fd ≠ 0 → i.fd ≠ (lowestFd w.openFds : Nat) := by
    intro a i ha hz he
    have hne : lowestFd w.openFds ≠ 0 := by
      intro hl
      rw [he, hl] at hz
      exact hz rfl
    exact lowestFd_free w.openFds ((h.open_iff _ hne).mpr (.inr ⟨a, i, ha, he⟩))
  refine ⟨?_, ?_, ?_, ?_⟩
  · intro a i ha
    rcases hcases a i ha with ⟨-, hf⟩ | ⟨-, ha⟩
    · omega
    · exact h.natural a i ha
  · intro a b i j ha hb he hz
    rcases hcases a i ha with ⟨rfl, hf⟩ | ⟨-, ha⟩ <;> rcases hcases b j hb with ⟨rfl, hg⟩ | ⟨-, hb⟩
    · rfl
    · exact absurd (he.symm.trans hf) (hfree b j hb (he ▸ hz))
    · exact absurd (he.trans hg) (hfree a i ha hz)
    · exact h.own a b i j ha hb he hz
  · intro a i fd ha hf hz hext
    rcases hcases a i ha with ⟨-, hf'⟩ | ⟨-, ha⟩
    · have hfd : fd = lowestFd w.openFds := by omega
      exact lowestFd_free w.openFds (hfd ▸ (h.open_iff fd hz).mpr (.inl hext))
    · exact h.apart a i fd ha hf hz hext
  · intro fd hz
    have hnew : fd ∈ (w.openIface env n).openFds ↔ fd = lowestFd w.openFds ∨ fd ∈ w.openFds :=
      List.mem_cons
    rw [hnew, h.open_iff fd hz]
    constructor
    · intro hf
      rcases hf with hf | hext | ⟨a, i, ha, hf⟩
      · exact .inr ⟨w.next, _, Function.update_self .., by rw [hf]; rfl⟩
      · exact .inl hext
      · have hn : a ≠ w.next := by
          intro he
          rw [he, hnone.ifaces _ (Nat.le_refl _)] at ha
          cases ha
        exact .inr ⟨a, i, (Function.update_of_ne hn _ _).trans ha, hf⟩
    · intro hf
      rcases hf with hext | ⟨a, i, ha, hf⟩
      · exact .inr (.inl hext)
      · rcases hcases a i ha with ⟨-, hf'⟩ | ⟨-, ha⟩
        · exact .inl (by omega)
        · exact .inr (.inr ⟨a, i, ha, hf⟩)

/-- Another owner gets a descriptor that was not open. -/
theorem Descriptors.acquire {fd : Nat} {ext' : List Nat} (h : Descriptors ext w)
    (hfd : fd ∉ w.openFds) (hext : ∀ x ≠ 0, x ∈ ext' ↔ x = fd ∨ x ∈ ext) :
    Descriptors ext' { w with openFds := fd :: w.openFds } := by
  refine ⟨h.natural, h.own, ?_, ?_⟩
  · intro a i x ha hf hz hx
    rcases (hext x hz).mp hx with rfl | hx
    · exact hfd ((h.open_iff x hz).mpr (.inr ⟨a, i, ha, hf⟩))
    · exact h.apart a i x ha hf hz hx
  · intro x hz
    rw [List.mem_cons, h.open_iff x hz, hext x hz, or_assoc]

/-- What is owned by others, named in another way. -/
theorem Descriptors.congr {ext' : List Nat} (h : Descriptors ext w)
    (he : ∀ x ≠ 0, x ∈ ext' ↔ x ∈ ext) : Descriptors ext' w := by
  refine ⟨h.natural, h.own, ?_, ?_⟩
  · exact fun a i x ha hf hz hx => h.apart a i x ha hf hz ((he x hz).mp hx)
  · intro x hz
    rw [h.open_iff x hz, he x hz]

/-- The world with `fds` closed. -/
def World.close (w : World) (fds : List Nat) : World :=
  { w with openFds := w.openFds.filter (fun x => x ∉ fds) }

theorem World.close_idle (w : World) (fds : List Nat) : Idle w (w.close fds) :=
  { Idle.refl w with next := Nat.le_refl _ }

theorem closeFd_run (fd : Nat) (w : World) : closeFd fd w = .ok ((), w.close [fd]) := by
  simp [closeFd, World.close, modify, modifyGet, MonadStateOf.modifyGet, StateT.modifyGet, pure,
    Except.pure]

theorem World.close_close (w : World) (fds fds' : List Nat) :
    (w.close fds).close fds' = w.close (fds ++ fds') := by
  simp only [World.close, List.filter_filter]
  congr 2
  funext x
  simp [Bool.and_comm]

/-- Other owners close descriptors of their own. -/
theorem Descriptors.release {fds ext' : List Nat} (h : Descriptors ext w)
    (hfds : ∀ fd ∈ fds, fd ∈ ext) (hext : ∀ x ≠ 0, x ∈ ext' ↔ x ∉ fds ∧ x ∈ ext) :
    Descriptors ext' (w.close fds) := by
  refine ⟨h.natural, h.own, ?_, ?_⟩
  · intro a i x ha hf hz hx
    exact h.apart a i x ha hf hz ((hext x hz).mp hx).2
  · intro x hz
    simp only [World.close]
    rw [List.mem_filter, decide_eq_true_eq, h.open_iff x hz, hext x hz]
    constructor
    · intro hx
      exact hx.1.imp_left (fun he => ⟨hx.2, he⟩)
    · intro hx
      rcases hx with ⟨hne, hx⟩ | ⟨a, i, ha, hf⟩
      · exact ⟨.inl hx, hne⟩
      · exact ⟨.inr ⟨a, i, ha, hf⟩, fun he => h.apart a i x ha hf hz (hfds x he)⟩

end Changes

section Steps

/-- The destructor of an iface that is not registered. -/
theorem ifaceFreeAt_descriptors {E : Fault → Prop} (hc : Consistent w live)
    (h : Descriptors ext w) (hi : w.ifaces a = some i) (ht : a ∉ w.tracked.map Prod.snd) :
    Runs E (ifaceFreeAt env a) w (fun _ v => Descriptors ext v) := by
  refine (ifaceFreeAt_closes hc hi ht).mono (fun _ he => he.elim) ?_
  intro _ v hv
  rcases hv.2.2.1 with ⟨-, hgone, ho⟩ | ⟨-, hsame, ho, -⟩
  · exact h.drop hi hgone ho
  · exact h.of_same (by rw [hsame]; exact .refl _ _) ho

theorem destroyAll_descriptors {regs : List (Nat × Addr)} (hc : Consistent w live)
    (h : Descriptors ext w) (hn : (regs.map Prod.snd).Nodup)
    (hl : ∀ x ∈ regs, (w.ifaces x.2).isSome) (ht : ∀ x ∈ regs, x.2 ∉ w.tracked.map Prod.snd) :
    Runs (fun _ => True) (destroyAll env regs) w (fun _ v => Descriptors ext v) := by
  induction regs generalizing w with
  | nil => exact h
  | cons x xs ih =>
    rw [List.map_cons, List.nodup_cons] at hn
    obtain ⟨i, hi⟩ := Option.isSome_iff_exists.mp (hl x List.mem_cons_self)
    have ht' := ht x List.mem_cons_self
    refine Runs.bind (Runs.and (E := fun _ => True) (ifaceFreeAt_descriptors hc h hi ht')
      (ifaceFreeAt_does hc hi ht')) ?_
    intro _ v hv
    obtain ⟨hv, -, hcv, htr, hif⟩ := hv
    refine ih hcv hv hn.2 ?_ ?_
    · intro y hy
      have hne : y.2 ≠ x.2 := by
        intro he
        exact hn.1 (he ▸ List.mem_map_of_mem hy)
      rw [hif _ hne]
      exact hl y (List.mem_cons_of_mem _ hy)
    · intro y hy
      rw [htr]
      exact ht y (List.mem_cons_of_mem _ hy)

/-- `eptk_remove` -/
theorem eptkRemove_descriptors {fd : Int} (hc : Consistent w live) (h : Descriptors ext w) :
    Runs (fun _ => True) (eptkRemove env fd) w (fun _ v => Descriptors ext v) := by
  have hsub : ∀ q : Nat × Addr → Bool, ((w.tracked.filter q).map Prod.snd).Nodup :=
    fun q => hc.tracked.1.sublist (List.filter_sublist.map _)
  have hkeep := setTracked hc (hsub (fun r => (r.1 : Int) ≠ fd))
    (fun x hx => hc.tracked.2 x (List.mem_of_mem_filter hx))
  unfold eptkRemove
  rw [Runs.bind_iff, Runs.get_iff]
  refine Runs.bind_iff.mpr (Runs.modify_iff.mpr ?_)
  refine Runs.bind (destroyAll_descriptors hkeep.1 (h.of_same (.refl _ _) rfl)
    (hsub (fun r => (r.1 : Int) = fd)) (fun x hx => hc.tracked.2 x (List.mem_of_mem_filter hx)) ?_)
    (fun _ _ hv => hv)
  intro x hx hm
  obtain ⟨y, hy, he⟩ := List.mem_map.mp hm
  have hxy : x = y := List.inj_on_of_nodup_map hc.tracked.1 (List.mem_of_mem_filter hx)
    (List.mem_of_mem_filter hy) he.symm
  subst hxy
  have hfx := (List.mem_filter.mp hx).2
  have hfy := (List.mem_filter.mp hy).2
  simp only [decide_eq_true_eq] at hfx hfy
  exact hfy hfx

theorem poll_descriptors {recv : Recv} (hc : Consistent w live) (h : Descriptors ext w) :
    Runs (fun _ => True) (poll env a recv) w (fun _ v => Descriptors ext v) := by
  unfold poll
  rw [Runs.bind_iff, Runs.get_iff]
  cases hr : w.tracked.find? (fun r => r.2 = a) with
  | none => exact h
  | some r =>
    have hp := List.find?_some hr
    have ha : r.2 = a := of_decide_eq_true hp
    have hsome : (w.ifaces a).isSome := ha ▸ hc.tracked.2 r (List.mem_of_find?_eq_some hr)
    refine ((Passing.ifaceCallback.runs w).and (ifaceCallback_does hc hsome)).bind ?_
    intro rc v hv
    obtain ⟨hp, hh, -⟩ := hv
    have hv := h.of_same hp.ifaces hp.openFds
    split
    · exact (eptkRemove_descriptors (hh.consistent hc) hv).bind (fun _ _ hu => hu)
    · exact hv

theorem eptkRegister_descriptors {fd : Int} (h : Descriptors ext w) :
    Runs (fun _ => True) (eptkRegister fd a) w (fun _ v => Descriptors ext v) := by
  unfold eptkRegister
  refine ((Obeys.syscall (P := @descriptors .sample ext)).keeps.runs h).bind ?_
  intro ok v hv
  cases ok with
  | false => exact hv
  | true => exact hv.of_same (.refl _ _) rfl

/-- `iface_parse` in add mode, after its walk. -/
theorem ifaceParseMode_opens {s : IfaceArgs} (hc : Consistent w live) (h : Descriptors ext w) :
    Runs (fun _ => True) (ifaceParseMode env .add s) w (fun _ v => Descriptors ext v) := by
  unfold ifaceParseMode
  by_cases ho : Openable env s.name w
  · refine Runs.bind_of_ok ho.opens ?_
    have hopen : Descriptors ext (w.openIface env s.name) := h.opened hc.fresh
    refine Runs.bind_of_ok (deref_ok.mpr ⟨Function.update_self .., rfl⟩) ?_
    refine (eptkRegister_descriptors hopen).bind ?_
    intro ok v hv
    cases ok with
    | false => exact (Obeys.parseDie (P := @descriptors env ext)).keeps.runs hv
    | true => exact (Obeys.parseEmit (P := @descriptors env ext)).keeps.runs hv
  · refine (ifaceNew_refuses hc ho).bind ?_
    intro r v hv
    obtain ⟨rfl, hr⟩ := hv
    exact (Obeys.parseDie (P := @descriptors env ext)).keeps.runs (h.refused hr)

/-- `iface_parse` in del mode, after its walk. -/
theorem ifaceParseMode_closes {s : IfaceArgs} (hc : Consistent w live) (h : Descriptors ext w) :
    Runs (fun _ => True) (ifaceParseMode env .del s) w (fun _ v => Descriptors ext v) := by
  have hdie : ∀ {v : World} {msg : Text}, Descriptors ext v →
      Runs (fun _ => True) (parseDie s.errCnt msg) v (fun _ v => Descriptors ext v) :=
    fun hv => (Obeys.parseDie (P := @descriptors env ext)).keeps.runs hv
  unfold ifaceParseMode
  rw [jsGet_run]
  cases hl : AList.lookup s.name w.ifaceJS with
  | none => exact hdie h
  | some a =>
    obtain ⟨i, hi, -⟩ := hc.ifaces.found hl
    refine Runs.bind_of_ok (deref_ok.mpr ⟨hi, rfl⟩) ?_
    split
    · exact hdie h
    refine ((ifaceEmit_quiet env hi).mono (fun _ _ => trivial) (fun _ _ hq => hq)).bind ?_
    intro errs v hv
    have hdv := h.of_idle hv.1 hv.2
    split
    · exact hdie hdv
    refine (eptkRemove_descriptors (hv.1.consistent hc) hdv).bind ?_
    intro k u hu
    split
    · exact hdie hu
    · exact hu

theorem ifaceParse_descriptors (hc : Consistent w live) (h : Descriptors ext w) :
    Runs (fun _ => True) (ifaceParse env mode doc mapping) w (fun _ v => Descriptors ext v) := by
  unfold ifaceParse
  refine ifaceWalk_names.bind ?_
  intro r v hv
  have hi : Idle w v := by
    rw [hv.1]
    exact { Idle.refl w with next := Nat.le_refl _ }
  have hdv : Descriptors ext v := h.of_idle hi (by rw [hv.1])
  cases r with
  | die s => exact hdv
  | go s =>
    cases mode with
    | add => exact ifaceParseMode_opens (hi.consistent hc) hdv
    | del => exact ifaceParseMode_closes (hi.consistent hc) hdv
    | prn =>
      simp only [ifaceParseMode]
      split
      · exact (Obeys.parseEmit (P := @descriptors env ext)).keeps.runs hdv
      · rw [jsGet_run]
        split
        · exact hdv
        · exact (Obeys.parseEmit (P := @descriptors env ext)).keeps.runs hdv
    | invalid => exact (Obeys.parseDie (P := @descriptors env ext)).keeps.runs hdv

/-- Whatever the mapping, the descriptors keep their owners. -/
theorem subsystemParse_descriptors {sub : Subsystem} (hc : Consistent w live)
    (h : Descriptors ext w) :
    Runs (fun _ => True) (subsystemParse env sub mode doc mapping) w
      (fun _ v => Descriptors ext v) := by
  cases sub with
  | iface => exact ifaceParse_descriptors hc h
  | field => exact (Obeys.fieldParse (P := @descriptors env ext)).keeps.runs h
  | rule => exact (Obeys.ruleParse (P := @descriptors env ext)).keeps.runs h
  | process => exact (Obeys.processParse (P := @descriptors env ext)).keeps.runs h

theorem descriptors_companion : Companion env (fun _ _ _ _ _ => True) (fun _ _ _ => True)
    (Descriptors ext) where
  idle := fun h hi ho => h.of_idle hi ho
  mapping := fun hc h _ => subsystemParse_descriptors hc h
  packet := fun hc h _ => poll_descriptors hc h

end Steps

end Xdpacket
