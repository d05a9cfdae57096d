import Mathlib.Data.List.Basic
import Mathlib.Data.List.Perm.Basic
import Mathlib.Logic.Function.Basic

/-- Some bytes of a packet, from its start on or, with a negative offset, back from its end.
The last byte counts under the mask only. -/
structure Slice where
  offt : Int
  len : Nat
  mask : UInt8
deriving DecidableEq, Repr

/-- Where an operand has its bytes. -/
inductive Place (κ : Type) where
  | packet
  | buffer (name : κ)
  | literal (bytes : List UInt8)
deriving DecidableEq, Repr

structure Side (κ : Type) where
  slice : Slice
  place : Place κ
deriving DecidableEq, Repr

/-- Bytes that are compared, or go from `src` to `dst`. -/
structure Transfer (κ : Type) where
  dst : Side κ
  src : Side κ
deriving DecidableEq, Repr

/-- A packet and what the named buffers hold. -/
structure Storage (κ : Type) where
  pkt : List UInt8
  buffers : κ → Option (List UInt8)

/-- A clause of a table: where all checks agree it rewrites the packet and sends it out. -/
structure Clause (κ π : Type) where
  checks : List (Transfer κ)
  writes : List (Transfer κ)
  out : π
  hits : UInt32
deriving DecidableEq, Repr

/-- A table for each port, over common buffers. -/
structure Switch (κ π : Type) where
  ports : π → Option (List (Clause κ π))
  buffers : κ → Option (List UInt8)

variable {κ π : Type}

namespace Slice

/-- Where the slice starts in a packet of `plen` bytes. -/
def start (x : Slice) (plen : Nat) : Int := if 0 ≤ x.offt then x.offt else plen + x.offt

/-- The index of its first byte, if all of its bytes are there. -/
def locate (x : Slice) (plen : Nat) : Option Nat :=
  if 0 ≤ x.start plen ∧ x.start plen + x.len ≤ plen then some (x.start plen).toNat else none

end Slice

namespace Storage

/-- The bytes of a side, if they are there. -/
def read (s : Storage κ) (x : Side κ) : Option (List UInt8) :=
  match x.place with
  | .packet => (x.slice.locate s.pkt.length).map (fun o => (s.pkt.drop o).take x.slice.len)
  | .buffer name => s.buffers name
  | .literal bytes => some bytes

/-- The storage with other bytes at a side; a literal has no place for them. -/
def write [DecidableEq κ] (s : Storage κ) (x : Side κ) (bytes : List UInt8) : Option (Storage κ) :=
  match x.place with
  | .packet => (x.slice.locate s.pkt.length).map
      (fun o => { s with pkt := s.pkt.take o ++ bytes ++ s.pkt.drop (o + bytes.length) })
  | .buffer name => some { s with buffers := Function.update s.buffers name (some bytes) }
  | .literal _ => none

end Storage

/-- The last byte under a mask. -/
def underMask (mask : UInt8) (bytes : List UInt8) : List UInt8 :=
  bytes.modify (bytes.length - 1) (· &&& mask)

/-- The bytes `new` over `old`: of the last byte only the bits that both masks have. -/
def overlay (dst src : UInt8) (old new : List UInt8) : List UInt8 :=
  new.modify (new.length - 1)
    (fun b => (old.getD (new.length - 1) 0 &&& ~~~dst) ||| ((b &&& dst) &&& src))

theorem underMask_eq_iff {m m' : UInt8} {d b : List UInt8} {n : Nat} (hd : d.length = n)
    (hb : b.length = n) : underMask m d = underMask m' b ↔
      ∀ i x y, d[i]? = some x → b[i]? = some y →
        if i + 1 < n then x = y else x &&& m = y &&& m' := by
  constructor
  · intro h i x y hx hy
    have hi := (List.getElem?_eq_some_iff.mp hx).1
    have he := congrArg (·[i]?) h
    simp only [underMask, List.getElem?_modify, hx, hy, Option.map_eq_map, Option.map_some,
      Option.some.injEq] at he
    split
    · rwa [if_neg (by omega), if_neg (by omega)] at he
    · rwa [if_pos (by omega), if_pos (by omega)] at he
  · intro h
    apply List.ext_getElem?
    intro i
    simp only [underMask, List.getElem?_modify]
    by_cases hi : i < n
    · obtain ⟨x, hx⟩ : ∃ x, d[i]? = some x := ⟨_, List.getElem?_eq_getElem (by omega)⟩
      obtain ⟨y, hy⟩ : ∃ y, b[i]? = some y := ⟨_, List.getElem?_eq_getElem (by omega)⟩
      have he := h i _ _ hx hy
      rw [hx, hy]
      simp only [Option.map_eq_map, Option.map_some, Option.some.injEq]
      split at he
      · rw [if_neg (by omega), if_neg (by omega), he]
      · rw [if_pos (by omega), if_pos (by omega), he]
    · rw [List.getElem?_eq_none (by omega), List.getElem?_eq_none (by omega)]
      rfl

@[simp] theorem length_overlay {dst src : UInt8} {old new : List UInt8} :
    (overlay dst src old new).length = new.length :=
  List.length_modify ..

theorem getElem?_overlay {dst src : UInt8} {old new : List UInt8} {i : Nat} :
    (overlay dst src old new)[i]? = new[i]?.map (fun b =>
      if i + 1 < new.length then b
      else (old.getD i 0 &&& ~~~dst) ||| ((b &&& dst) &&& src)) := by
  unfold overlay
  rw [List.getElem?_modify]
  cases h : new[i]? with
  | none => rfl
  | some b =>
    have hi := (List.getElem?_eq_some_iff.mp h).1
    by_cases hl : i + 1 < new.length
    · simp [hl, show new.length - 1 ≠ i by omega]
    · obtain rfl : i = new.length - 1 := by omega
      simp [hl]

/-- Bytes put over those of a packet. -/
theorem getElem?_splice {l bs : List UInt8} {o j : Nat} (h : o + bs.length ≤ l.length) :
    (l.take o ++ bs ++ l.drop (o + bs.length))[j]? =
      if o ≤ j ∧ j < o + bs.length then bs[j - o]? else l[j]? := by
  have ho : (l.take o).length = o := by rw [List.length_take]; omega
  rw [List.getElem?_append, List.getElem?_append, List.length_append, ho]
  by_cases hlow : j < o
  · rw [if_pos (by omega), if_pos hlow, if_neg (by omega), List.getElem?_take_of_lt hlow]
  by_cases hin : j < o + bs.length
  · rw [if_pos hin, if_neg hlow, if_pos (by omega)]
  · rw [if_neg hin, if_neg (by omega), List.getElem?_drop]
    congr 1
    omega

namespace Transfer

/-- Two different slices of the packet that share a byte. -/
def Overlapping (x : Transfer κ) (plen : Nat) : Prop :=
  match x.dst.place, x.src.place, x.dst.slice.locate plen, x.src.slice.locate plen with
  | .packet, .packet, some i, some j => i ≠ j ∧ i < j + x.src.slice.len ∧ j < i + x.dst.slice.len
  | _, _, _, _ => False

instance (x : Transfer κ) (plen : Nat) : Decidable (x.Overlapping plen) := by
  unfold Overlapping
  split <;> infer_instance

/-- Whether both sides are there and equal under their masks. The specification does not
say what it is to compare sides of different lengths. -/
def agrees (x : Transfer κ) (s : Storage κ) : Option Bool :=
  if x.dst.slice.len ≠ x.src.slice.len then none
  else if x.dst.slice.len = 0 then some true
  else
    match s.read x.dst, s.read x.src with
    | some d, some b => some (decide (underMask x.dst.slice.mask d = underMask x.src.slice.mask b))
    | _, _ => some false

/-- The storage after the transfer; inside, `none` where a side is not there. The
specification does not say what it is to transfer between sides of different lengths, or
ones that overlap. -/
def perform [DecidableEq κ] (x : Transfer κ) (s : Storage κ) : Option (Option (Storage κ)) :=
  if x.dst.slice.len ≠ x.src.slice.len then none
  else if x.dst.slice.len = 0 then some (some s)
  else
    match s.read x.dst, s.read x.src with
    | some old, some new =>
      if x.Overlapping s.pkt.length then none
      else (s.write x.dst (overlay x.dst.slice.mask x.src.slice.mask old new)).map some
    | _, _ => some none

section Cases

variable {x : Transfer κ} {s : Storage κ} {d b : List UInt8}

theorem len_of_agrees {r : Bool} (h : x.agrees s = some r) : x.dst.slice.len = x.src.slice.len := by
  unfold agrees at h
  by_contra hne
  rw [if_pos hne] at h
  cases h

theorem agrees_empty (hl : x.dst.slice.len = x.src.slice.len) (hz : x.dst.slice.len = 0) :
    x.agrees s = some true := by
  unfold agrees
  rw [if_neg (not_not.mpr hl), if_pos hz]

theorem agrees_read (hl : x.dst.slice.len = x.src.slice.len) (hz : x.dst.slice.len ≠ 0)
    (hd : s.read x.dst = some d) (hb : s.read x.src = some b) : x.agrees s =
      some (decide (underMask x.dst.slice.mask d = underMask x.src.slice.mask b)) := by
  unfold agrees
  rw [if_neg (not_not.mpr hl), if_neg hz, hd, hb]

theorem agrees_missing (hl : x.dst.slice.len = x.src.slice.len) (hz : x.dst.slice.len ≠ 0)
    (h : s.read x.dst = none ∨ s.read x.src = none) : x.agrees s = some false := by
  unfold agrees
  rw [if_neg (not_not.mpr hl), if_neg hz]
  rcases h with h | h
  · rw [h]
  · rw [h]
    cases s.read x.dst <;> rfl

variable [DecidableEq κ]

theorem len_of_perform {r : Option (Storage κ)} (h : x.perform s = some r) :
    x.dst.slice.len = x.src.slice.len := by
  unfold perform at h
  by_contra hne
  rw [if_pos hne] at h
  cases h

theorem perform_empty (hl : x.dst.slice.len = x.src.slice.len) (hz : x.dst.slice.len = 0) :
    x.perform s = some (some s) := by
  unfold perform
  rw [if_neg (not_not.mpr hl), if_pos hz]

theorem perform_read (hl : x.dst.slice.len = x.src.slice.len) (hz : x.dst.slice.len ≠ 0)
    (hd : s.read x.dst = some d) (hb : s.read x.src = some b) : x.perform s =
      if x.Overlapping s.pkt.length then none
      else (s.write x.dst (overlay x.dst.slice.mask x.src.slice.mask d b)).map some := by
  unfold perform
  rw [if_neg (not_not.mpr hl), if_neg hz, hd, hb]

theorem perform_missing (hl : x.dst.slice.len = x.src.slice.len) (hz : x.dst.slice.len ≠ 0)
    (h : s.read x.dst = none ∨ s.read x.src = none) : x.perform s = some none := by
  unfold perform
  rw [if_neg (not_not.mpr hl), if_neg hz]
  rcases h with h | h
  · rw [h]
  · rw [h]
    cases s.read x.dst <;> rfl

end Cases

end Transfer

/-- Whether all agree, up to the first that does not. -/
def agreeAll : List (Transfer κ) → Storage κ → Option Bool
  | [], _ => some true
  | x :: xs, s =>
    match x.agrees s with
    | none => none
    | some false => some false
    | some true => agreeAll xs s

/-- All transfers in order, up to the first that cannot be done, and whether there was none. -/
def performAll [DecidableEq κ] : List (Transfer κ) → Storage κ → Option (Bool × Storage κ)
  | [], s => some (true, s)
  | x :: xs, s =>
    match x.perform s with
    | none => none
    | some none => some (false, s)
    | some (some t) => performAll xs t

/-- What a table makes of a packet: the table with its hits, the storage, and where the
packet goes. -/
structure Passage (κ π : Type) where
  clauses : List (Clause κ π)
  storage : Storage κ
  out : Option π

/-- The first clause whose checks agree is the only one that acts. -/
def forward [DecidableEq κ] : List (Clause κ π) → Storage κ → Option (Passage κ π)
  | [], s => some ⟨[], s, none⟩
  | c :: cs, s =>
    match agreeAll c.checks s with
    | none => none
    | some true => (performAll c.writes s).map (fun r =>
        ⟨{ c with hits := c.hits + 1 } :: cs, r.2, if r.1 then some c.out else none⟩)
    | some false => (forward cs s).map (fun r => { r with clauses := c :: r.clauses })

/-- The frames that leave: `finish` completes a frame, or holds it back. -/
def emitted (finish : List UInt8 → Option (Option (List UInt8))) (r : Passage κ π) :
    Option (List (π × List UInt8)) :=
  match r.out with
  | none => some []
  | some port => (finish r.storage.pkt).map (fun frame => (frame.map (port, ·)).toList)

section WellFormed

/-- A side names as many bytes as its buffer or literal has. -/
def Side.Fits (size : κ → Nat) (x : Side κ) : Prop :=
  match x.place with
  | .packet => True
  | .buffer name => x.slice.len = size name
  | .literal bytes => x.slice.len = bytes.length

/-- A transfer between sides of one length, which has a place to go to. -/
structure Transfer.WellFormed (size : κ → Nat) (x : Transfer κ) : Prop where
  len : x.dst.slice.len = x.src.slice.len
  dst : x.dst.Fits size
  src : x.src.Fits size
  target : ∀ bytes, x.dst.place ≠ .literal bytes

/-- Every buffer has its size. -/
def Storage.Sized (size : κ → Nat) (s : Storage κ) : Prop :=
  ∀ name bytes, s.buffers name = some bytes → bytes.length = size name

variable {size : κ → Nat} {s t : Storage κ} {x : Side κ}

/-- What a side that fits reads has its length. -/
theorem Storage.Sized.read {bytes : List UInt8} (h : s.Sized size) (hx : x.Fits size)
    (hr : s.read x = some bytes) : bytes.length = x.slice.len := by
  unfold Storage.read at hr
  unfold Side.Fits at hx
  cases hp : x.place with
  | packet =>
    rw [hp] at hr
    obtain ⟨o, ho, rfl⟩ := Option.map_eq_some_iff.mp hr
    unfold Slice.locate at ho
    split at ho
    · cases ho
      rw [List.length_take, List.length_drop]
      omega
    · cases ho
  | buffer name =>
    rw [hp] at hr hx
    rw [h name bytes hr, hx]
  | literal bs =>
    rw [hp] at hr hx
    cases hr
    exact hx.symm

variable [DecidableEq κ]

/-- A write of as many bytes as its side has keeps every size. -/
theorem Storage.Sized.write {bytes : List UInt8} (h : s.Sized size) (hx : x.Fits size)
    (hl : bytes.length = x.slice.len) (hw : s.write x bytes = some t) :
    t.Sized size ∧ t.pkt.length = s.pkt.length := by
  unfold Storage.write at hw
  unfold Side.Fits at hx
  cases hp : x.place with
  | packet =>
    rw [hp] at hw
    obtain ⟨o, ho, rfl⟩ := Option.map_eq_some_iff.mp hw
    refine ⟨h, ?_⟩
    unfold Slice.locate at ho
    split at ho
    · cases ho
      simp only [List.length_append, List.length_take, List.length_drop]
      omega
    · cases ho
  | buffer name =>
    rw [hp] at hw hx
    cases hw
    refine ⟨fun n bs hn => ?_, rfl⟩
    change Function.update s.buffers name (some bytes) n = some bs at hn
    by_cases he : n = name
    · subst he
      rw [Function.update_self] at hn
      cases hn
      rw [hl, hx]
    · rw [Function.update_of_ne he] at hn
      exact h n bs hn
  | literal bs =>
    rw [hp] at hw
    cases hw

/-- A well-formed transfer is specified for every packet in which it does not overlap itself. -/
theorem Transfer.WellFormed.performs {x : Transfer κ} (hx : x.WellFormed size) (h : s.Sized size)
    (ho : ¬ x.Overlapping s.pkt.length) : ∃ r, x.perform s = some r ∧
      ∀ t, r = some t → t.Sized size ∧ t.pkt.length = s.pkt.length := by
  by_cases hz : x.dst.slice.len = 0
  · refine ⟨some s, Transfer.perform_empty hx.len hz, ?_⟩
    rintro t ⟨⟩
    exact ⟨h, rfl⟩
  cases hd : s.read x.dst with
  | none => exact ⟨none, Transfer.perform_missing hx.len hz (.inl hd), fun t ht => by cases ht⟩
  | some d =>
    cases hb : s.read x.src with
    | none => exact ⟨none, Transfer.perform_missing hx.len hz (.inr hb), fun t ht => by cases ht⟩
    | some b =>
      have hl : (overlay x.dst.slice.mask x.src.slice.mask d b).length = x.dst.slice.len := by
        rw [length_overlay, h.read hx.src hb, hx.len]
      rw [Transfer.perform_read hx.len hz hd hb, if_neg ho]
      cases hw : s.write x.dst (overlay x.dst.slice.mask x.src.slice.mask d b) with
      | some t =>
        refine ⟨some t, rfl, ?_⟩
        rintro t' ⟨⟩
        exact h.write hx.dst hl hw
      | none =>
        unfold Storage.write at hw
        unfold Storage.read at hd
        cases hp : x.dst.place with
        | packet =>
          rw [hp] at hw hd
          rw [Option.map_eq_none_iff.mp hw] at hd
          cases hd
        | buffer name =>
          rw [hp] at hw
          cases hw
        | literal bs => exact absurd hp (hx.target bs)

theorem performAll_specified {xs : List (Transfer κ)} (hx : ∀ x ∈ xs, x.WellFormed size)
    (h : s.Sized size) (ho : ∀ x ∈ xs, ¬ x.Overlapping s.pkt.length) :
    (performAll xs s).isSome := by
  induction xs generalizing s with
  | nil => rfl
  | cons x xs ih =>
    obtain ⟨r, hr, hkeep⟩ := (hx x (List.mem_cons_self ..)).performs h (ho x (List.mem_cons_self ..))
    unfold performAll
    rw [hr]
    cases r with
    | none => rfl
    | some t =>
      obtain ⟨hs, hl⟩ := hkeep t rfl
      exact ih (fun y hy => hx y (List.mem_cons_of_mem _ hy)) hs
        (fun y hy => by rw [hl]; exact ho y (List.mem_cons_of_mem _ hy))

omit [DecidableEq κ] in
theorem agreeAll_specified {xs : List (Transfer κ)} (hx : ∀ x ∈ xs, x.dst.slice.len = x.src.slice.len) :
    (agreeAll xs s).isSome := by
  induction xs with
  | nil => rfl
  | cons x xs ih =>
    have hl := hx x (List.mem_cons_self ..)
    have hrest := ih (fun y hy => hx y (List.mem_cons_of_mem _ hy))
    have hsome : (x.agrees s).isSome := by
      unfold Transfer.agrees
      rw [if_neg (not_not.mpr hl)]
      split
      · rfl
      · split <;> rfl
    obtain ⟨r, hr⟩ := Option.isSome_iff_exists.mp hsome
    unfold agreeAll
    rw [hr]
    cases r
    · rfl
    · exact hrest

/-- A table whose transfers are well formed is specified for every packet in which none of its
writes overlaps itself. -/
theorem forward_specified {cs : List (Clause κ π)}
    (hc : ∀ c ∈ cs, ∀ x ∈ c.checks ++ c.writes, x.WellFormed size) (h : s.Sized size)
    (ho : ∀ c ∈ cs, ∀ x ∈ c.writes, ¬ x.Overlapping s.pkt.length) : (forward cs s).isSome := by
  induction cs with
  | nil => rfl
  | cons c cs ih =>
    have hwell := hc c (List.mem_cons_self ..)
    have hchecks := agreeAll_specified (s := s)
      (fun x hx => (hwell x (List.mem_append_left _ hx)).len)
    have hwrites := performAll_specified (fun x hx => hwell x (List.mem_append_right _ hx)) h
      (ho c (List.mem_cons_self ..))
    obtain ⟨r, hr⟩ := Option.isSome_iff_exists.mp hchecks
    unfold forward
    rw [hr]
    cases r with
    | true => rwa [Option.isSome_map]
    | false =>
      rw [Option.isSome_map]
      exact ih (fun d hd => hc d (List.mem_cons_of_mem _ hd))
        (fun d hd => ho d (List.mem_cons_of_mem _ hd))

end WellFormed

section Translations

variable {α β γ : Type} {f : α → Option β} {xs : List α} {rs : List (Option γ)}

/-- The entries that got an answer, in their order. -/
def answered (xs : List α) (rs : List (Option γ)) : List α :=
  ((xs.zip rs).filter (fun x => x.2.isSome)).map Prod.fst

/-- A list put into other terms entry by entry: exactly the entries of `xs` that got one of the
answers `rs`, in their order. -/
def Translated (f : α → Option β) (xs : List α) (rs : List (Option γ)) (ys : List β) : Prop :=
  (answered xs rs).map f = ys.map some

/-- Answers to the entries, each good for what the entry stands for. -/
theorem Translated.of_answers {g : γ → Option β}
    (h : List.Forall₂ (fun x r => ∀ c, r = some c → ∃ y, g c = some y ∧ f x = some y) xs rs) :
    Translated f xs rs ((rs.filterMap id).filterMap g) := by
  induction h with
  | nil => rfl
  | @cons x r xs rs hx _ ih =>
    cases r with
    | none => simpa [Translated, answered] using ih
    | some c =>
      obtain ⟨y, hy, hf⟩ := hx c rfl
      simpa [Translated, answered, hy, hf] using ih

end Translations

namespace Switch

section Configuration

variable {sw sw' : Switch κ π}

/-- Another configuration: a port has its table still, with its hits, or none, or a new one; a
buffer has its bytes still, or is gone, or is zero. -/
structure Reconfigured (sw sw' : Switch κ π) : Prop where
  ports : ∀ port, sw'.ports port = sw.ports port ∨ sw'.ports port = none ∨
    ∃ table, sw'.ports port = some table ∧ ∀ c ∈ table, c.hits = 0
  buffers : ∀ name, sw'.buffers name = sw.buffers name ∨ sw'.buffers name = none ∨
    ∃ n, sw'.buffers name = some (List.replicate n 0)

end Configuration

variable [DecidableEq κ] [DecidableEq π]

/-- A packet comes in by a port. -/
def receive (finish : List UInt8 → Option (Option (List UInt8))) (sw : Switch κ π) (port : π)
    (pkt : List UInt8) : Option (Switch κ π × List (π × List UInt8)) :=
  match sw.ports port with
  | none => some (sw, [])
  | some clauses =>
    (forward clauses ⟨pkt, sw.buffers⟩).bind (fun r => (emitted finish r).map (fun frames =>
      (⟨Function.update sw.ports port (some r.clauses), r.storage.buffers⟩, frames)))

/-- Packets one after the other. -/
def receiveAll (finish : List UInt8 → Option (Option (List UInt8))) :
    List (π × List UInt8) → Switch κ π → Option (Switch κ π × List (π × List UInt8))
  | [], sw => some (sw, [])
  | x :: xs, sw =>
    (receive finish sw x.1 x.2).bind (fun r =>
      (receiveAll finish xs r.1).map (fun q => (q.1, r.2 ++ q.2)))

theorem receiveAll_append {finish : List UInt8 → Option (Option (List UInt8))}
    (xs ys : List (π × List UInt8)) (sw : Switch κ π) : receiveAll finish (xs ++ ys) sw =
      (receiveAll finish xs sw).bind (fun r =>
        (receiveAll finish ys r.1).map (fun q => (q.1, r.2 ++ q.2))) := by
  induction xs generalizing sw with
  | nil => cases h : receiveAll finish ys sw <;> simp [receiveAll, h]
  | cons x xs ih =>
    simp only [List.cons_append, receiveAll]
    cases receive finish sw x.1 x.2 with
    | none => rfl
    | some r =>
      simp only [Option.bind_some, ih]
      cases receiveAll finish xs r.1 with
      | none => rfl
      | some q =>
        simp only [Option.bind_some, Option.map_some]
        cases receiveAll finish ys q.1 <;> simp

theorem receiveAll_single {finish : List UInt8 → Option (Option (List UInt8))} (x : π × List UInt8)
    (sw : Switch κ π) : receiveAll finish [x] sw = receive finish sw x.1 x.2 := by
  simp only [receiveAll, Option.map_some, List.append_nil]
  cases receive finish sw x.1 x.2 <;> rfl

end Switch
