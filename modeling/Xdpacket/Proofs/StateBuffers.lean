import Xdpacket.Proofs.NoDangling

namespace Xdpacket

variable {w v : World} {live : Multiset Ref} {env : Env} {a : Addr} {ws : List Written}

/-- Writes that go elsewhere leave the bytes at `a`. -/
theorem replay_elsewhere (h : ∀ x ∈ ws, x.op.to' ≠ some a) (bs : Bytes) : replay a ws bs = bs := by
  induction ws generalizing bs with
  | nil => rfl
  | cons x ws ih =>
    unfold replay
    rw [List.foldl_cons, if_neg (h x (List.mem_cons_self ..))]
    exact ih (fun y hy => h y (List.mem_cons_of_mem _ hy)) bs

/-- The bytes of every state are the writes to it, over the zeroes it started with. No
write of the history went to an address not yet given out. -/
structure Folded (w : World) : Prop where
  bytes : ∀ a r, w.memrefs a = some r → r.stateName.isSome →
    r.bytes = replay a w.written (List.replicate r.set.len.toNat 0)
  given : ∀ x ∈ w.written, ∀ a, x.op.to' = some a → a < w.next

theorem Folded.idle (h : Folded w) (hi : Idle w v) : Folded v where
  bytes := by
    rw [hi.memrefs, hi.written]
    exact h.bytes
  given := by
    rw [hi.written]
    exact fun x hx a ha => Nat.lt_of_lt_of_le (h.given x hx a ha) hi.next

/-- Configuration writes nothing, and a new state starts with zeroes. -/
theorem Folded.quiet (h : Folded w) (hq : Quiet w v) : Folded v where
  bytes := by
    intro a r hr hn
    rw [hq.written]
    rcases Nat.lt_or_ge a w.next with hlt | hge
    · obtain ⟨q, hq', hb⟩ := hq.bytes a hlt r hr
      obtain ⟨q', hq'', hk⟩ := hq.memrefs a hlt r hr
      rw [hq'] at hq''
      cases hq''
      have hset : r.set = q.set := congrArg Prod.fst hk
      have hname : r.stateName = q.stateName := congrArg Prod.snd hk
      rw [hb, hset]
      exact h.bytes a q hq' (hname ▸ hn)
    · rw [hq.zeroed a r hge hr hn, replay_elsewhere]
      intro x hx he
      exact absurd (h.given x hx a he) (Nat.not_lt.mpr hge)
  given := by
    rw [hq.written]
    exact fun x hx a ha => Nat.lt_of_lt_of_le (h.given x hx a ha) hq.next

/-- Packets change a state by the writes that the history gains. -/
theorem Folded.handles (h : Folded w) (hf : Fresh w) (hh : Handles w v) : Folded v := by
  obtain ⟨ws, hw, hlive, hb⟩ := hh.writes
  refine ⟨?_, ?_⟩
  · intro a r hr hn
    have hba := hb a
    rw [hr] at hba
    obtain ⟨q, hq, hqb⟩ := Option.map_eq_some_iff.mp hba.symm
    obtain ⟨r', hr', hk⟩ := hh.memrefs.live hq
    rw [hr] at hr'
    cases hr'
    simp only [Prod.mk.injEq] at hk
    have hname : r.stateName = q.stateName := by simp only [Memref.stateName, hk.1]
    rw [← hqb, hw, replay_append, hk.2, ← h.bytes a q hq (hname ▸ hn)]
  · intro x hx a ha
    rw [hh.next]
    rw [hw] at hx
    rcases List.mem_append.mp hx with hm | hm
    · exact h.given x hm a ha
    · obtain ⟨r, hr⟩ := Option.isSome_iff_exists.mp (hlive x hm a ha)
      exact hf.memrefs.below hr

theorem folded_invariant :
    ProgramInvariant env (fun w => (∃ live, Consistent w live) ∧ Folded w) where
  consistent := fun _ h => h.1
  idle := fun w v h hi => ⟨⟨_, hi.consistent h.1.choose_spec⟩, h.2.idle hi⟩
  handled := fun w v h hh =>
    ⟨⟨_, hh.consistent h.1.choose_spec⟩, h.2.handles h.1.choose_spec.fresh hh⟩
  removed := by
    intro w fd h
    refine Runs.imp (consistent_invariant.removed w fd h.1) ?_
    intro _ v hv
    exact ⟨hv.1, hv.2, h.2.quiet hv.1⟩

/-- What the documentation says of states, in one state of the program and over the
next step. -/
structure StateBuffers (env : Env) (w : World) : Prop where
  folded : ∀ a r, w.memrefs a = some r → r.stateName.isSome →
    r.bytes = replay a w.written (List.replicate r.set.len.toNat 0)
  oneBuffer : DistinctNames w.memrefs Memref.stateName
  written : ∀ a r, w.rules a = some r → ∀ op ∈ r.matchJQ ++ r.writeJQ, op.set.to' = op.dst ∧
    ∀ b q, op.dst = some b → w.memrefs b = some q →
      q.set.len = op.set.setTo.len ∧ q.set.mask = op.set.setTo.mask
  read : ∀ a r, w.rules a = some r → ∀ op ∈ r.matchJQ ++ r.writeJQ, op.set.from' = op.src ∧
    ∀ b q, op.src = some b → w.memrefs b = some q →
      q.set.len = op.set.setFrom.len ∧ q.set.mask = op.set.setFrom.mask
  configured : ∀ sub mode doc mapping errs v,
    subsystemParse env sub mode doc mapping w = .ok (errs, v) → v.written = w.written ∧
      ∀ b q q', w.memrefs b = some q → v.memrefs b = some q' → q'.bytes = q.bytes
  matched : ∀ op rc v, liftMem (opMatch op) w = .ok (rc, v) → v = w
  wrote : ∀ op rc v, opWriteRecorded env op w = .ok (rc, v) →
    (rc = 0 ∧ v.written = w.written ++ [⟨op, opSource op w.toMem⟩] ∧
      ∀ b, (v.memrefs b).map Memref.bytes = (w.memrefs b).map (fun q =>
        if op.to' = some b then writeOver op (opSource op w.toMem) q.bytes else q.bytes)) ∨
    (rc ≠ 0 ∧ v = w)

/-- Nothing that a parser does writes to a memref that stays. -/
theorem Quiet.bytes_kept (h : Quiet w v) (hf : Fresh w) {q q' : Memref}
    (hq : w.memrefs a = some q) (hq' : v.memrefs a = some q') : q'.bytes = q.bytes := by
  obtain ⟨p, hp, hb⟩ := h.bytes a (hf.memrefs.below hq) q' hq'
  rw [hq] at hp
  cases hp
  exact hb

theorem opMatch_changes_nothing {op : OpSet} {rc : Nat}
    (h : liftMem (opMatch op) w = .ok (rc, v)) : v = w := by
  have hr : Runs (fun _ => True) (liftMem (opMatch op)) w (fun _ v => v = w) := by
    rw [liftMem_iff]
    refine Runs.imp (opMatch_reads op w.toMem) ?_
    intro _ m hm
    rw [hm]
  exact hr.ok h

/-- One recorded write, as the states see it. -/
theorem opWriteRecorded_wrote {op : OpSet} {rc : Nat}
    (h : opWriteRecorded env op w = .ok (rc, v)) :
    (rc = 0 ∧ v.written = w.written ++ [⟨op, opSource op w.toMem⟩] ∧
      ∀ b, (v.memrefs b).map Memref.bytes = (w.memrefs b).map (fun q =>
        if op.to' = some b then writeOver op (opSource op w.toMem) q.bytes else q.bytes)) ∨
    (rc ≠ 0 ∧ v = w) := by
  have hr : Runs (fun _ => True) (liftMem (opWrite env.cpy op)) w (fun rc v =>
      ∃ m, v = { w with toMem := m } ∧
        if rc = 0 then Wrote op (opSource op w.toMem) w.toMem m else m = w.toMem) := by
    rw [liftMem_iff]
    exact (opWrite_wrote env.cpy op w.toMem).imp (fun _ m hm => ⟨m, rfl, hm⟩)
  have hrec : Runs (fun _ => True) (opWriteRecorded env op) w (fun rc v =>
      (rc = 0 ∧ v.written = w.written ++ [⟨op, opSource op w.toMem⟩] ∧
        ∀ b, (v.memrefs b).map Memref.bytes = (w.memrefs b).map (fun q =>
          if op.to' = some b then writeOver op (opSource op w.toMem) q.bytes else q.bytes)) ∨
      (rc ≠ 0 ∧ v = w)) := by
    unfold opWriteRecorded
    rw [Runs.bind_iff, Runs.get_iff]
    refine Runs.bind hr ?_
    intro rc v hv
    obtain ⟨m, rfl, hm⟩ := hv
    by_cases hrc : rc = 0
    · rw [if_pos hrc] at hm
      simp only [hrc, if_true]
      exact .inl ⟨rfl, rfl, hm.bytes⟩
    · rw [if_neg hrc] at hm
      subst hm
      simp only [if_neg hrc]
      exact .inr ⟨hrc, rfl⟩
  exact hrec.ok h

theorem Folded.stateBuffers (h : Folded w) (hc : Consistent w live) : StateBuffers env w where
  folded := h.bytes
  oneBuffer := hc.noDangling.stateNames
  written := by
    intro a r hr op ho
    have hok := hc.ops a r hr op ho
    exact ⟨hok.to', fun b q hb hq => (hok.dst b hb).2 q hq⟩
  read := by
    intro a r hr op ho
    have hok := hc.ops a r hr op ho
    exact ⟨hok.from', fun b q hb hq => (hok.src b hb).2 q hq⟩
  configured := by
    intro sub mode doc mapping errs v hr
    obtain ⟨hq, -⟩ := (subsystemParse_does hc).ok hr
    exact ⟨hq.written, fun b q q' hb hb' => hq.bytes_kept hc.fresh hb hb'⟩
  matched := fun _ _ _ hr => opMatch_changes_nothing hr
  wrote := fun _ _ _ hr => opWriteRecorded_wrote hr

/-- In every run the state buffers behave as documented. -/
theorem state_buffers_fold (env : Env) (openFds : List Nat) (oom sys : List Bool)
    (events : List Event) :
    Runs NoDangle (handleAll env events) (World.start openFds oom sys)
      (fun _ w => StateBuffers env w) := by
  have hstart : Folded (World.start openFds oom sys) :=
    ⟨fun _ _ hr => (by cases hr), fun _ hx => (by cases hx)⟩
  refine Runs.imp (handleAll_keeps (C := fun _ _ _ _ _ => True) folded_invariant ?_
    ⟨⟨0, consistent_start openFds oom sys⟩, hstart⟩ (runMeets_of (fun _ _ _ _ _ => trivial))) ?_
  · intro doc sub mode mapping w h _
    refine Runs.imp (subsystemParse_does h.1.choose_spec) ?_
    intro _ v hv
    exact ⟨hv.1, ⟨_, hv.2.choose_spec⟩, h.2.quiet hv.1⟩
  · intro _ w h
    exact h.2.stateBuffers h.1.choose_spec

end Xdpacket
