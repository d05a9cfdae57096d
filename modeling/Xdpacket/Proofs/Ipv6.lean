import Xdpacket.Proofs.Recognisers

namespace Xdpacket

open RegularExpression

theorem group_matches_iff {cs : List Char} : cs ∈ ipv6Group.matches' ↔
    1 ≤ cs.length ∧ cs.length ≤ 4 ∧ ∀ c ∈ cs, digitValue c < 16 := by
  rw [ipv6Group, matches_between_oneOf]
  simp only [mem_hexDigits]

/-- `(:|::)` -/
def ipv6Colons : RegularExpression Char := char ':' + char ':' * char ':'

theorem one_colon : [':'] ∈ ipv6Colons.matches' := matches_add.mpr (.inl (matches_char.mpr rfl))

theorem two_colons : [':', ':'] ∈ ipv6Colons.matches' :=
  matches_add.mpr (.inr (matches_mul.mpr
    ⟨_, matches_char.mpr rfl, _, matches_char.mpr rfl, rfl⟩))

/-- `k` groups with their colons, and a last group. -/
def ipv6Groups (k : Nat) : RegularExpression Char := (ipv6Group * ipv6Colons) ^ k * ipv6Group

theorem more_groups {k : Nat} {ds colons cs : List Char} (hd : ds ∈ ipv6Group.matches')
    (hc : colons ∈ ipv6Colons.matches') (h : cs ∈ (ipv6Groups k).matches') :
    ds ++ colons ++ cs ∈ (ipv6Groups (k + 1)).matches' := by
  obtain ⟨ys, hy, zs, hz, rfl⟩ := matches_mul.mp h
  exact matches_mul.mpr ⟨ds ++ colons ++ ys, matches_pow_succ.mpr
    ⟨_, matches_mul.mpr ⟨ds, hd, colons, hc, rfl⟩, ys, hy, rfl⟩, zs, hz, by simp⟩

section Loop

variable {s s' : Pton6} {src : List Char}

/-- The digits of a group only count up. -/
theorem loop_digits {ds rest : List Char} (hd : ∀ c ∈ ds, digitValue c < 16)
    (hs : s.xdigitsSeen ≤ 4) (h : pton6Loop (ds ++ rest) s = some s') :
    s.xdigitsSeen + ds.length ≤ 4 ∧ ∃ val,
      pton6Loop rest { s with xdigitsSeen := s.xdigitsSeen + ds.length, val := val } = some s' := by
  induction ds generalizing s with
  | nil => exact ⟨hs, s.val, h⟩
  | cons c ds ih =>
    rw [List.cons_append, pton6Loop, if_pos (hd c (by simp))] at h
    split at h
    · cases h
    · obtain ⟨hlen, val, hrest⟩ := ih (fun d hm => hd d (by simp [hm]))
        (by simp only; omega) h
      simp only [Nat.add_assoc, Nat.add_comm 1] at hlen hrest
      exact ⟨hlen, val, hrest⟩

theorem loop_other {c : Char} (hhex : ¬ digitValue c < 16) (hcolon : c ≠ ':') (hdot : c ≠ '.') :
    pton6Loop (c :: src) s = none := by
  rw [pton6Loop, if_neg hhex, if_neg hcolon, if_neg (fun h => hdot h.1)]

theorem colon_not_hex : ¬ digitValue ':' < 16 := by decide

/-- A colon after a group ends it. -/
theorem loop_colon (hx : s.xdigitsSeen ≠ 0) (h : pton6Loop (':' :: src) s = some s') :
    src ≠ [] ∧ s.tmp.length + 2 ≤ 16 ∧ ∃ s₁ : Pton6, s₁.xdigitsSeen = 0 ∧ s₁.colonp = s.colonp ∧
      s₁.tmp.length = s.tmp.length + 2 ∧ pton6Loop src s₁ = some s' := by
  rw [pton6Loop, if_neg colon_not_hex, if_pos rfl, if_neg hx] at h
  split at h
  · cases h
  · rename_i hne
    by_cases hroom : 16 < s.tmp.length + 2
    · simp only [Pton6.putGroup, if_pos hroom] at h
      cases h
    · simp only [Pton6.putGroup, if_neg hroom] at h
      refine ⟨hne, by omega, _, ?_, ?_, ?_, h⟩
      · rfl
      · rfl
      · simp

/-- A colon where a group should begin makes `::`, of which there is only one. -/
theorem loop_colons (hx : s.xdigitsSeen = 0) (h : pton6Loop (':' :: src) s = some s') :
    s.colonp = none ∧ ∃ s₁ : Pton6, s₁.xdigitsSeen = 0 ∧ s₁.colonp = some s.tmp.length ∧
      s₁.tmp = s.tmp ∧ pton6Loop src s₁ = some s' := by
  rw [pton6Loop, if_neg colon_not_hex, if_pos rfl, if_pos hx] at h
  cases hc : s.colonp with
  | none =>
    rw [hc, Option.isSome_none, if_neg Bool.false_ne_true] at h
    refine ⟨rfl, _, ?_, ?_, ?_, h⟩
    · exact hx
    · rfl
    · rfl
  | some i =>
    rw [hc] at h
    cases h

/-- The loop in the middle of a text. It sees no digit there only after a colon. -/
theorem loop_split {front rest : List Char} (h : pton6Loop (front ++ rest) s = some s')
    (hdot : '.' ∉ front) : ∃ s₁, pton6Loop rest s₁ = some s' ∧ (s₁.xdigitsSeen = 0 →
      front = [] ∧ s.xdigitsSeen = 0 ∨ ∃ before, front = before ++ [':']) := by
  induction front generalizing s with
  | nil => exact ⟨s, h, fun hx => .inl ⟨rfl, hx⟩⟩
  | cons c front ih =>
    have hdots : '.' ∉ front := fun hm => hdot (by simp [hm])
    have hnext : ∀ s₁ : Pton6, pton6Loop (front ++ rest) s₁ = some s' →
        (s₁.xdigitsSeen = 0 → c = ':') → ∃ s₂, pton6Loop rest s₂ = some s' ∧
          (s₂.xdigitsSeen = 0 → c :: front = [] ∧ s.xdigitsSeen = 0 ∨
            ∃ before, c :: front = before ++ [':']) := by
      intro s₁ h₁ hc
      obtain ⟨s₂, h₂, hx₂⟩ := ih h₁ hdots
      refine ⟨s₂, h₂, fun hx => .inr ?_⟩
      rcases hx₂ hx with ⟨rfl, hz⟩ | ⟨before, rfl⟩
      · exact ⟨[], by rw [hc hz]; rfl⟩
      · exact ⟨c :: before, rfl⟩
    by_cases hhex : digitValue c < 16
    · rw [List.cons_append, pton6Loop, if_pos hhex] at h
      split at h
      · cases h
      · exact hnext _ h (fun hz => absurd hz (Nat.succ_ne_zero _))
    · by_cases hcolon : c = ':'
      · subst hcolon
        by_cases hx : s.xdigitsSeen = 0
        · obtain ⟨-, s₁, -, -, -, h₁⟩ := loop_colons hx h
          exact hnext s₁ h₁ (fun _ => rfl)
        · obtain ⟨-, -, s₁, -, -, -, h₁⟩ := loop_colon hx h
          exact hnext s₁ h₁ (fun _ => rfl)
      · rw [List.cons_append, loop_other hhex hcolon (fun he => hdot (by simp [he]))] at h
        cases h

/-- A text that ends in a single colon is refused. -/
theorem loop_trailing {cs : List Char} (h : pton6Loop (cs ++ [':']) s = some s')
    (hdot : '.' ∉ cs) : cs = [] ∧ s.xdigitsSeen = 0 ∨ ∃ before, cs = before ++ [':'] := by
  obtain ⟨s₁, h₁, hx⟩ := loop_split h hdot
  by_cases hz : s₁.xdigitsSeen = 0
  · exact hx hz
  · exact absurd rfl (loop_colon hz h₁).1

theorem loop_chars {cs : List Char} (h : pton6Loop cs s = some s') (hdot : '.' ∉ cs) :
    ∀ c ∈ cs, c ∈ ':' :: hexDigits := by
  intro c hc
  obtain ⟨front, rest, rfl⟩ := List.append_of_mem hc
  obtain ⟨s₁, h₁, -⟩ := loop_split h (fun hm => hdot (by simp [hm]))
  rw [List.mem_cons, mem_hexDigits]
  by_contra hn
  rw [not_or] at hn
  rw [loop_other hn.2 hn.1 (fun he => hdot (by simp [he]))] at h₁
  cases h₁

/-- What the three kinds of step keep, the loop keeps. -/
theorem loop_keeps {I : Pton6 → Prop} (digit : ∀ (s : Pton6) (seen val : Nat), I s →
      I { s with xdigitsSeen := seen, val := val })
    (group : ∀ s s₁ : Pton6, I s → s₁.colonp = s.colonp → s.tmp.length + 2 ≤ 16 →
      s₁.tmp.length = s.tmp.length + 2 → I s₁)
    (colons : ∀ s s₁ : Pton6, I s → s.colonp = none → s₁.colonp = some s.tmp.length →
      s₁.tmp = s.tmp → I s₁)
    {cs : List Char} (hdot : '.' ∉ cs) (hs : I s) (h : pton6Loop cs s = some s') : I s' := by
  induction cs generalizing s with
  | nil =>
    obtain rfl := Option.some.inj h
    exact hs
  | cons c cs ih =>
    have hdots : '.' ∉ cs := fun hm => hdot (by simp [hm])
    by_cases hhex : digitValue c < 16
    · rw [pton6Loop, if_pos hhex] at h
      split at h
      · cases h
      · exact ih hdots (digit s _ _ hs) h
    · by_cases hcolon : c = ':'
      · subst hcolon
        by_cases hx : s.xdigitsSeen = 0
        · obtain ⟨hnone, s₁, -, hc, ht, h₁⟩ := loop_colons hx h
          exact ih hdots (colons s s₁ hs hnone hc ht) h₁
        · obtain ⟨-, hroom, s₁, -, hc, ht, h₁⟩ := loop_colon hx h
          exact ih hdots (group s s₁ hs hc hroom ht) h₁
      · rw [loop_other hhex hcolon (fun he => hdot (by simp [he]))] at h
        cases h

theorem loop_length {cs : List Char} (hdot : '.' ∉ cs) (hs : s.tmp.length ≤ 16)
    (h : pton6Loop cs s = some s') : s'.tmp.length ≤ 16 :=
  loop_keeps (I := fun s => s.tmp.length ≤ 16) (fun _ _ _ hs => hs)
    (fun _ _ _ _ hroom ht => by omega) (fun _ _ hs _ _ ht => by rwa [ht]) hdot hs h

theorem loop_colonp {cs : List Char} (hdot : '.' ∉ cs) (hs : s.colonp ≠ none)
    (h : pton6Loop cs s = some s') : s'.colonp ≠ none :=
  loop_keeps (I := fun s => s.colonp ≠ none) (fun _ _ _ hs => hs)
    (fun _ _ hs hc _ _ => by rwa [hc]) (fun _ _ hs hnone _ _ => absurd hnone hs) hdot hs h

/-- A text that is accepted where a group should begin, and neither begins nor
ends with a colon. -/
structure Inner (cs : List Char) (s s' : Pton6) : Prop where
  nonempty : cs ≠ []
  dot : '.' ∉ cs
  start : cs.head? ≠ some ':'
  last : cs.getLast? ≠ some ':'
  seen : s.xdigitsSeen = 0
  accepted : pton6Loop cs s = some s'

/-- Such a text begins with a group, which ends there or at a colon. -/
theorem Inner.first {cs : List Char} (h : Inner cs s s') :
    ∃ ds rest val, cs = ds ++ rest ∧ ds ∈ ipv6Group.matches' ∧ (∀ c ∈ rest.head?, c = ':') ∧
      pton6Loop rest { s with xdigitsSeen := ds.length, val := val } = some s' := by
  obtain ⟨ds, rest, rfl, hds, hrest⟩ : ∃ ds rest, cs = ds ++ rest ∧
      (∀ c ∈ ds, digitValue c < 16) ∧ ∀ c ∈ rest.head?, ¬ digitValue c < 16 := by
    refine ⟨cs.takeWhile (fun c => digitValue c < 16), cs.dropWhile (fun c => digitValue c < 16),
      List.takeWhile_append_dropWhile.symm, fun c hc => ?_, fun c hc => ?_⟩
    · simpa using List.mem_takeWhile_imp hc
    · have hh := List.head?_dropWhile_not (fun c => decide (digitValue c < 16)) cs
      rw [Option.mem_def.mp hc] at hh
      simpa using hh
  obtain ⟨hlen, val, hloop⟩ := loop_digits hds (by rw [h.seen]; omega) h.accepted
  rw [h.seen, Nat.zero_add] at hlen hloop
  have hcolon : ∀ c ∈ rest.head?, c = ':' := by
    intro c hc
    obtain ⟨src, rfl⟩ : ∃ src, rest = c :: src := ⟨rest.tail, (List.cons_head?_tail hc).symm⟩
    by_contra hne
    rw [loop_other (hrest c hc) hne (fun he => h.dot (by simp [he]))] at hloop
    cases hloop
  have hpos : ds ≠ [] := by
    rintro rfl
    obtain ⟨c, hc⟩ := Option.ne_none_iff_exists'.mp (mt List.head?_eq_none_iff.mp h.nonempty)
    exact h.start (hc.trans (congrArg some (hcolon c hc)))
  have hgroup := group_matches_iff.mpr ⟨List.length_pos_of_ne_nil hpos, hlen, hds⟩
  exact ⟨ds, rest, val, rfl, hgroup, hcolon, hloop⟩

/-- Behind a group come one or two colons, and another text of the kind. -/
theorem loop_separator (hx : s.xdigitsSeen ≠ 0) (h : pton6Loop (':' :: src) s = some s')
    (hdot : '.' ∉ src) (hend : (':' :: src).getLast? ≠ some ':') :
    ∃ colons cs s₁, colons ∈ ipv6Colons.matches' ∧ ':' :: src = colons ++ cs ∧
      s₁.tmp.length = s.tmp.length + 2 ∧ Inner cs s₁ s' := by
  obtain ⟨hsrc, -, s₁, hx₁, -, ht₁, h₁⟩ := loop_colon hx h
  cases src with
  | nil => exact absurd rfl hsrc
  | cons d src =>
    have hlast : (d :: src).getLast? ≠ some ':' := by rwa [List.getLast?_cons_cons] at hend
    by_cases hd : d = ':'
    · subst hd
      obtain ⟨-, s₂, hx₂, hc₂, ht₂, h₂⟩ := loop_colons hx₁ h₁
      have hsrc₂ : src ≠ [] := by
        rintro rfl
        exact hlast rfl
      refine ⟨[':', ':'], src, s₂, two_colons, rfl, by rw [ht₂, ht₁], hsrc₂,
        fun hm => hdot (List.mem_cons_of_mem _ hm), ?_, ?_, hx₂, h₂⟩
      · intro hhead
        obtain ⟨rest, rfl⟩ : ∃ rest, src = ':' :: rest :=
          ⟨src.tail, (List.cons_head?_tail hhead).symm⟩
        have hnone := (loop_colons hx₂ h₂).1
        rw [hc₂] at hnone
        cases hnone
      · obtain ⟨c, rest, rfl⟩ := List.exists_cons_of_ne_nil hsrc₂
        rwa [List.getLast?_cons_cons] at hlast
    · exact ⟨[':'], d :: src, s₁, one_colon, rfl, ht₁, List.cons_ne_nil _ _, hdot,
        by simpa using hd, hlast, hx₁, h₁⟩

/-- Such a text is a row of groups. -/
theorem Inner.groups {cs : List Char} (h : Inner cs s s') :
    ∃ k, cs ∈ (ipv6Groups k).matches' ∧ s'.tmp.length = s.tmp.length + 2 * k ∧
      0 < s'.xdigitsSeen ∧ (k = 0 → s'.colonp = s.colonp) := by
  induction hn : cs.length using Nat.strong_induction_on generalizing cs s with
  | _ n ih =>
    obtain ⟨ds, rest, val, rfl, hgroup, hcolon, hloop⟩ := h.first
    have hpos : 0 < ds.length := (group_matches_iff.mp hgroup).1
    cases rest with
    | nil =>
      simp only [pton6Loop, Option.some.injEq] at hloop
      subst hloop
      refine ⟨0, ?_, rfl, hpos, fun _ => rfl⟩
      exact matches_mul.mpr ⟨[], matches_pow_zero.mpr rfl, ds, hgroup, (List.append_nil ds).symm⟩
    | cons c src =>
      obtain rfl : c = ':' := hcolon c rfl
      have hend : (':' :: src).getLast? ≠ some ':' := by
        rw [← List.getLast?_append_of_ne_nil ds (List.cons_ne_nil _ _)]
        exact h.last
      obtain ⟨colons, cs, s₁, hc, he, ht, hinner⟩ := loop_separator
        (s := { s with xdigitsSeen := ds.length, val := val }) (Nat.pos_iff_ne_zero.mp hpos) hloop
        (fun hm => h.dot (by simp [hm])) hend
      have hshort : cs.length < n := by
        rw [← hn, he, List.length_append, List.length_append]
        omega
      obtain ⟨k, hm, htmp, hseen, -⟩ := ih cs.length hshort hinner rfl
      refine ⟨k + 1, ?_, by rw [htmp, ht]; simp only; omega, hseen, fun h0 => absurd h0 (by omega)⟩
      rw [he, ← List.append_assoc]
      exact more_groups hgroup hc hm

end Loop

/-- The text begins or ends with `::` and is none of the two that are spelled
out in the expression. -/
def EdgeColons (cs : List Char) : Prop :=
  ([':', ':'] <+: cs ∨ [':', ':'] <:+ cs) ∧ cs ≠ [':', ':'] ∧ cs ≠ [':', ':', '1']

instance (cs : List Char) : Decidable (EdgeColons cs) := by
  unfold EdgeColons
  infer_instance

theorem not_prefix_of_hex {g rest : List Char} (hne : g ≠ []) (h : ∀ c ∈ g, digitValue c < 16) :
    ¬ [':', ':'] <+: g ++ rest := by
  intro ⟨tail, he⟩
  cases g with
  | nil => exact hne rfl
  | cons c g =>
    obtain rfl : c = ':' := by simpa using congrArg List.head? he.symm
    exact colon_not_hex (h ':' (by simp))

theorem not_suffix_of_hex {front z : List Char} (hne : z ≠ []) (h : ∀ c ∈ z, digitValue c < 16) :
    ¬ [':', ':'] <:+ front ++ z := by
  intro ⟨head, he⟩
  have hlast := congrArg List.getLast? he
  rw [List.getLast?_append, List.getLast?_append] at hlast
  cases hl : z.getLast? with
  | none => exact hne (List.getLast?_eq_none_iff.mp hl)
  | some c =>
    rw [hl] at hlast
    obtain rfl : c = ':' := by simpa using hlast.symm
    exact colon_not_hex (h ':' (List.mem_of_getLast? hl))

theorem not_edge_of_groups {cs : List Char} {k : Nat} (h : cs ∈ (ipv6Groups (k + 1)).matches') :
    ¬ EdgeColons cs := by
  obtain ⟨ys, hy, zs, hz, rfl⟩ := matches_mul.mp h
  obtain ⟨p, hp, ps, -, rfl⟩ := matches_pow_succ.mp hy
  obtain ⟨g, hg, colons, -, rfl⟩ := matches_mul.mp hp
  obtain ⟨hg1, -, hgd⟩ := group_matches_iff.mp hg
  obtain ⟨hz1, -, hzd⟩ := group_matches_iff.mp hz
  intro ⟨hedge, _, _⟩
  rcases hedge with hfront | hback
  · rw [List.append_assoc, List.append_assoc] at hfront
    exact not_prefix_of_hex (List.ne_nil_of_length_pos hg1) hgd hfront
  · exact not_suffix_of_hex (List.ne_nil_of_length_pos hz1) hzd hback

theorem txtMac_ends {cs : List Char} (h : cs ∈ txtMac.matches') :
    ¬ [':', ':'] <+: cs ∧ ¬ [':', ':'] <:+ cs := by
  have hdigits : ∀ {g : List Char}, g ∈ (oneOf hexDigits ^ 2).matches' →
      g ≠ [] ∧ ∀ c ∈ g, digitValue c < 16 := by
    intro g hg
    obtain ⟨hl, hd⟩ := matches_pow_oneOf.mp hg
    exact ⟨List.ne_nil_of_length_pos (by omega), fun c hc => (mem_hexDigits c).mp (hd c hc)⟩
  obtain ⟨ys, hy, zs, hz, rfl⟩ := matches_mul.mp h
  obtain ⟨p, hp, ps, -, rfl⟩ := matches_pow_succ.mp hy
  obtain ⟨g, hg, colons, -, rfl⟩ := matches_mul.mp hp
  constructor
  · rw [List.append_assoc, List.append_assoc]
    exact not_prefix_of_hex (hdigits hg).1 (hdigits hg).2
  · exact not_suffix_of_hex (hdigits hz).1 (hdigits hz).2

theorem txtIpv6_not_edge {cs : List Char} (h : cs ∈ txtIpv6.matches') : ¬ EdgeColons cs := by
  rcases matches_add.mp h with h | h
  · rcases matches_add.mp h with h | h
    · obtain ⟨ys, hy, zs, hz, rfl⟩ := matches_mul.mp h
      obtain ⟨k, hk, -, hy⟩ := matches_between.mp hy
      obtain ⟨j, rfl⟩ : ∃ j, k = j + 1 := ⟨k - 1, by omega⟩
      exact not_edge_of_groups (matches_mul.mpr ⟨ys, hy, zs, hz, rfl⟩)
    · obtain ⟨ys, hy, zs, hz, rfl⟩ := matches_mul.mp h
      rw [matches_char.mp hy, matches_char.mp hz]
      decide
  · obtain ⟨ys, hy, zs, hz, rfl⟩ := matches_mul.mp h
    obtain ⟨ps, hp, qs, hq, rfl⟩ := matches_mul.mp hy
    rw [matches_char.mp hp, matches_char.mp hq, matches_char.mp hz]
    decide

/-- Without a colon in front there is nothing special about the first character. -/
theorem inetPton6_plain {cs : List Char} {addr : Bytes} (h : inetPton6 cs = some addr)
    (hedge : ¬ [':', ':'] <+: cs) : cs ≠ [] ∧ cs.head? ≠ some ':' ∧
      ∃ s', pton6Loop cs ⟨[], none, cs, 0, 0⟩ = some s' ∧ s'.finish = some addr := by
  unfold inetPton6 at h
  split at h
  · cases h
  · rename_i rest
    exact absurd ⟨rest, rfl⟩ hedge
  · cases h
  · rename_i hnil _ hcolon
    refine ⟨hnil, fun hh => ?_, Option.bind_eq_some_iff.mp h⟩
    exact hcolon cs.tail (List.cons_head?_tail hh).symm

theorem Pton6.putGroup_some {s t : Pton6} (h : s.putGroup = some t) :
    t.colonp = s.colonp ∧ t.tmp.length = s.tmp.length + 2 ∧ t.tmp.length ≤ 16 := by
  unfold putGroup at h
  split at h
  · cases h
  · obtain rfl := Option.some.inj h
    refine ⟨rfl, by simp, ?_⟩
    simp only [List.length_append, List.length_cons, List.length_nil]
    omega

/-- What `finish` needs: room for the last group, and all groups or `::`. -/
theorem Pton6.finish_some {s : Pton6} {addr : Bytes} (h : s.finish = some addr)
    (hx : 0 < s.xdigitsSeen) :
    s.tmp.length + 2 ≤ 16 ∧ (s.colonp = none → s.tmp.length = 14) := by
  unfold finish at h
  rw [if_pos hx] at h
  cases hp : s.putGroup with
  | none =>
    rw [hp] at h
    cases h
  | some t =>
    obtain ⟨hc, ht, hle⟩ := putGroup_some hp
    refine ⟨by omega, fun hnone => ?_⟩
    rw [hnone] at hc
    simp only [hp, hc] at h
    split at h
    · omega
    · cases h

/-- The expression matches every accepted text that keeps `::` off its edges. -/
theorem txtIpv6_of_accepted {cs : List Char} {addr : Bytes} (h : inetPton6 cs = some addr)
    (hdot : '.' ∉ cs) (hedge : ¬ EdgeColons cs) : cs ∈ txtIpv6.matches' := by
  by_cases htwo : cs = [':', ':']
  · subst htwo
    exact matches_add.mpr (.inl (matches_add.mpr (.inr (matches_mul.mpr
      ⟨_, matches_char.mpr rfl, _, matches_char.mpr rfl, rfl⟩))))
  by_cases hone : cs = [':', ':', '1']
  · subst hone
    exact matches_add.mpr (.inr (matches_mul.mpr ⟨[':', ':'], matches_mul.mpr
      ⟨_, matches_char.mpr rfl, _, matches_char.mpr rfl, rfl⟩, _, matches_char.mpr rfl, rfl⟩))
  have hfront : ¬ [':', ':'] <+: cs := fun hp => hedge ⟨.inl hp, htwo, hone⟩
  have hback : ¬ [':', ':'] <:+ cs := fun hp => hedge ⟨.inr hp, htwo, hone⟩
  obtain ⟨hne, hhead, s', hloop, hfin⟩ := inetPton6_plain h hfront
  have hend : cs.getLast? ≠ some ':' := by
    intro hl
    obtain ⟨front, rfl⟩ := List.getLast?_eq_some_iff.mp hl
    rcases loop_trailing hloop (fun hm => hdot (by simp [hm])) with ⟨rfl, -⟩ | ⟨front, rfl⟩
    · exact hhead rfl
    · exact hback ⟨front, by simp⟩
  obtain ⟨k, hm, ht, hpos, hc⟩ := Inner.groups ⟨hne, hdot, hhead, hend, rfl, hloop⟩
  obtain ⟨hroom, hall⟩ := s'.finish_some hfin hpos
  simp only [List.length_nil, Nat.zero_add] at ht hc
  have hk : 1 ≤ k := by
    by_contra hk
    have hk : k = 0 := by omega
    have := hall (hc hk)
    omega
  obtain ⟨ys, hy, zs, hz, rfl⟩ := matches_mul.mp hm
  exact matches_add.mpr (.inl (matches_add.mpr (.inl (matches_mul.mpr
    ⟨ys, matches_between.mpr ⟨k, hk, by omega, hy⟩, zs, hz, rfl⟩))))

/-- Six groups of two digits are too few for an address. -/
theorem loop_mac {k : Nat} {cs : List Char} {s s' : Pton6}
    (hm : cs ∈ ((oneOf hexDigits ^ 2 * char ':') ^ k * oneOf hexDigits ^ 2).matches')
    (hx : s.xdigitsSeen = 0) (h : pton6Loop cs s = some s') :
    s'.tmp.length = s.tmp.length + 2 * k ∧ s'.colonp = s.colonp ∧ 0 < s'.xdigitsSeen := by
  have hdigits : ∀ {g : List Char}, g ∈ (oneOf hexDigits ^ 2).matches' →
      g.length = 2 ∧ ∀ c ∈ g, digitValue c < 16 := by
    intro g hg
    obtain ⟨hl, hd⟩ := matches_pow_oneOf.mp hg
    exact ⟨hl, fun c hc => (mem_hexDigits c).mp (hd c hc)⟩
  induction k generalizing cs s with
  | zero =>
    obtain ⟨ys, hy, g, hg, rfl⟩ := matches_mul.mp hm
    obtain rfl := matches_pow_zero.mp hy
    obtain ⟨hl, hd⟩ := hdigits hg
    have hloop : pton6Loop (g ++ []) s = some s' := by simpa using h
    obtain ⟨-, val, hrest⟩ := loop_digits hd (by omega) hloop
    simp only [pton6Loop, Option.some.injEq] at hrest
    subst hrest
    exact ⟨rfl, rfl, by simp only; omega⟩
  | succ k ih =>
    obtain ⟨ys, hy, z, hz, rfl⟩ := matches_mul.mp hm
    obtain ⟨p, hp, ps, hps, rfl⟩ := matches_pow_succ.mp hy
    obtain ⟨g, hg, colon, hc, rfl⟩ := matches_mul.mp hp
    obtain rfl := matches_char.mp hc
    obtain ⟨hl, hd⟩ := hdigits hg
    have h : pton6Loop (g ++ ':' :: (ps ++ z)) s = some s' := by simpa using h
    obtain ⟨-, val, hrest⟩ := loop_digits hd (by omega) h
    obtain ⟨-, -, s₁, hx₁, hc₁, ht₁, h₁⟩ := loop_colon (by simp only; omega) hrest
    obtain ⟨ht, hc, hpos⟩ := ih (matches_mul.mpr ⟨ps, hps, z, hz, rfl⟩) hx₁ h₁
    exact ⟨by rw [ht, ht₁]; simp only; omega, hc.trans hc₁, hpos⟩

theorem accepted_not_mac {cs : List Char} {addr : Bytes} (h : inetPton6 cs = some addr) :
    cs ∉ txtMac.matches' := by
  intro hm
  obtain ⟨-, -, s', hloop, hfin⟩ := inetPton6_plain h (txtMac_ends hm).1
  obtain ⟨ht, hc, hpos⟩ := loop_mac hm rfl hloop
  have := (s'.finish_some hfin hpos).2 hc
  simp only [List.length_nil] at ht
  omega

theorem accepted_colon {cs : List Char} {addr : Bytes} (h : inetPton6 cs = some addr)
    (hdot : '.' ∉ cs) : ':' ∈ cs := by
  by_cases hedge : EdgeColons cs
  · rcases hedge.1 with ⟨rest, rfl⟩ | ⟨rest, rfl⟩ <;> simp
  · exact txtIpv6_colon cs (txtIpv6_of_accepted h hdot hedge)

theorem Pton6.last_group {s t : Pton6} (hs : s.tmp.length ≤ 16)
    (h : (if 0 < s.xdigitsSeen then s.putGroup else some s) = some t) :
    t.tmp.length ≤ 16 ∧ t.colonp = s.colonp := by
  split at h
  · exact ⟨(putGroup_some h).2.2, (putGroup_some h).1⟩
  · obtain rfl := Option.some.inj h
    exact ⟨hs, rfl⟩

theorem Pton6.length_finish {s : Pton6} {addr : Bytes} (hs : s.tmp.length ≤ 16)
    (h : s.finish = some addr) : addr.length = 16 := by
  have hzeros : ∀ {t : Pton6}, t.tmp.length ≤ 16 → ∀ i : Nat,
      (t.tmp.take i ++ List.replicate (16 - t.tmp.length) 0 ++ t.tmp.drop i).length = 16 := by
    intro t ht i
    simp only [List.length_append, List.length_take, List.length_replicate, List.length_drop]
    omega
  unfold finish at h
  split at h
  · cases h
  · rename_i t ht
    split at h
    · split at h
      · rename_i hlen
        rw [← Option.some.inj h, hlen]
      · cases h
    · split at h
      · cases h
      · rw [← Option.some.inj h]
        exact hzeros (last_group hs ht).1 _

theorem length_inetPton6 {cs : List Char} {addr : Bytes} (h : inetPton6 cs = some addr)
    (hdot : '.' ∉ cs) : addr.length = 16 := by
  unfold inetPton6 at h
  split at h
  · cases h
  · obtain ⟨s', hloop, hfin⟩ := Option.bind_eq_some_iff.mp h
    exact Pton6.length_finish (loop_length (fun hm => hdot (by simp [hm])) (by simp) hloop) hfin
  · cases h
  · obtain ⟨s', hloop, hfin⟩ := Option.bind_eq_some_iff.mp h
    exact Pton6.length_finish (loop_length hdot (by simp) hloop) hfin

/-- `::` leaves zeros. -/
theorem Pton6.zero_of_colonp {s : Pton6} {addr : Bytes} (hc : s.colonp ≠ none)
    (hs : s.tmp.length ≤ 16) (h : s.finish = some addr) : 0 ∈ addr := by
  unfold finish at h
  split at h
  · cases h
  · rename_i t ht
    obtain ⟨hle, hcol⟩ := last_group hs ht
    split at h
    · rename_i hnone
      exact absurd (hcol.symm.trans hnone) hc
    · split at h
      · cases h
      · rename_i hne
        rw [← Option.some.inj h]
        have hzeros : (0 : UInt8) ∈ List.replicate (16 - t.tmp.length) (0 : UInt8) :=
          List.mem_replicate.mpr ⟨by omega, rfl⟩
        exact List.mem_append_left _ (List.mem_append_right _ hzeros)

theorem zero_of_edge {cs : List Char} {addr : Bytes} (h : inetPton6 cs = some addr)
    (hdot : '.' ∉ cs) (hedge : EdgeColons cs) : 0 ∈ addr := by
  by_cases hfront : [':', ':'] <+: cs
  · obtain ⟨rest, rfl⟩ := hfront
    have hdots : '.' ∉ rest := fun hm => hdot (by simp [hm])
    obtain ⟨s', hloop, hfin⟩ := Option.bind_eq_some_iff.mp h
    obtain ⟨-, s₁, -, hc₁, ht₁, h₁⟩ := loop_colons rfl hloop
    exact s'.zero_of_colonp (loop_colonp hdots (by simp [hc₁]) h₁)
      (loop_length hdots (by simp [ht₁]) h₁) hfin
  · obtain ⟨front, rfl⟩ := hedge.1.resolve_left hfront
    obtain ⟨-, -, s', hloop, hfin⟩ := inetPton6_plain h hfront
    refine s'.zero_of_colonp ?_ (loop_length hdot (by simp) hloop) hfin
    obtain ⟨s₁, h₁, -⟩ := loop_split hloop (fun hm => hdot (by simp [hm]))
    have hdotless : '.' ∉ [':'] := by decide
    by_cases hx : s₁.xdigitsSeen = 0
    · obtain ⟨-, s₂, -, hc₂, -, h₂⟩ := loop_colons hx h₁
      exact loop_colonp hdotless (by simp [hc₂]) h₂
    · obtain ⟨-, -, s₂, hx₂, -, -, h₂⟩ := loop_colon hx h₁
      obtain ⟨-, s₃, -, hc₃, -, h₃⟩ := loop_colons hx₂ h₂
      exact loop_colonp (by simp) (by simp [hc₃]) h₃

theorem accepted_chars {cs : List Char} {addr : Bytes} (h : inetPton6 cs = some addr)
    (hdot : '.' ∉ cs) : ∀ c ∈ cs, c ∈ ':' :: hexDigits := by
  by_cases hfront : [':', ':'] <+: cs
  · obtain ⟨rest, rfl⟩ := hfront
    obtain ⟨s', hloop, -⟩ := Option.bind_eq_some_iff.mp h
    have hall := loop_chars hloop (fun hm => hdot (List.mem_cons_of_mem _ hm))
    intro c hc
    rcases List.mem_cons.mp hc with rfl | hc
    · simp
    · exact hall c hc
  · obtain ⟨-, -, s', hloop, -⟩ := inetPton6_plain h hfront
    exact loop_chars hloop hdot

end Xdpacket
