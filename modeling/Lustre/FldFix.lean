import Lustre.FldCache

/-!
# The fix-up pass of the FLD cache

`fld_fix_new_list` is run on a list that is in order except for one fresh entry,
which may reach over the entries behind it. Two facts carry everything:

* read as a map in which the *first* entry that holds a sequence decides
  (`cachedAt`), the list means the same before and after every walk;
* the shape "in order except for one fresh entry" (`Fixable`) is kept by every
  restart, and a walk that does not restart leaves the list in order (`Tidy`).

Each restart lowers `fixMeasure`, so the pass ends (`fldFixLoop_spec`).
-/

namespace Lustre

open List

/-! ## What a list of entries means -/

/-- The server that the list gives for a sequence: index and type of the first
entry that holds it. -/
@[simp] def cachedAt : List FldCacheEntry → ℕ → Option (ℕ × ℕ)
  | [], _ => none
  | f :: l, seq =>
    if luSeqRangeWithin f.fceRange seq then some (f.fceRange.lsrIndex, f.fceRange.lsrFlags)
    else cachedAt l seq

/-- The list is in order: ranges are not empty, and each ends before the ones
behind it start. -/
structure Tidy (l : List FldCacheEntry) : Prop where
  sorted : l.Pairwise fun a b => a.fceRange.lsrEnd ≤ b.fceRange.lsrStart
  nonempty : ∀ f ∈ l, f.fceRange.lsrStart < f.fceRange.lsrEnd

/-- The list is in order except for one fresh entry, which starts in its place
but may reach over entries of its own type behind it. -/
inductive Fixable : List FldCacheEntry → Prop where
  /-- the fresh entry -/
  | fresh (c : FldCacheEntry) (l : List FldCacheEntry) :
      c.fceRange.lsrStart < c.fceRange.lsrEnd → Tidy l →
      (∀ f ∈ l, c.fceRange.lsrStart ≤ f.fceRange.lsrStart) →
      (∀ f ∈ l, c.fceRange.lsrFlags ≠ f.fceRange.lsrFlags →
        c.fceRange.lsrEnd ≤ f.fceRange.lsrStart) → Fixable (c :: l)
  /-- an entry before it -/
  | old (f : FldCacheEntry) (l : List FldCacheEntry) : f.fceRange.lsrStart < f.fceRange.lsrEnd →
      (∀ g ∈ l, f.fceRange.lsrEnd ≤ g.fceRange.lsrStart) → Fixable l → Fixable (f :: l)

variable {seq : ℕ}

theorem luSeqRangeWithin_iff {r : LuSeqRange} :
    luSeqRangeWithin r seq = true ↔ r.lsrStart ≤ seq ∧ seq < r.lsrEnd := by
  simp [luSeqRangeWithin]

theorem cachedAt_append (l m : List FldCacheEntry) (seq : ℕ) :
    cachedAt (l ++ m) seq = (cachedAt l seq).or (cachedAt m seq) := by
  induction l with
  | nil => rfl
  | cons f l ih =>
    rw [cons_append, cachedAt, cachedAt, ih]
    split <;> rfl

variable {l : List FldCacheEntry}

open List (mem_cons_self mem_cons_of_mem mem_cons forall_mem_cons map_cons sum_cons)

/-- A list without an entry that holds the sequence has nothing to say. -/
theorem cachedAt_eq_none
    (h : ∀ f ∈ l, luSeqRangeWithin f.fceRange seq = false) : cachedAt l seq = none := by
  induction l with
  | nil => rfl
  | cons f l ih =>
    rw [cachedAt, h f mem_cons_self, if_neg Bool.false_ne_true]
    exact ih (forall_mem_cons.mp h).2

/-- What the list says comes from one of its entries. -/
theorem mem_of_cachedAt {p : ℕ × ℕ} (h : cachedAt l seq = some p) :
    ∃ f ∈ l, luSeqRangeWithin f.fceRange seq = true ∧
      p = (f.fceRange.lsrIndex, f.fceRange.lsrFlags) := by
  induction l with
  | nil => cases h
  | cons f l ih =>
    rw [cachedAt] at h
    split at h
    · next hw =>
      exact ⟨f, mem_cons_self, hw, (Option.some.inj h).symm⟩
    · obtain ⟨g, hg, hw, hp⟩ := ih h
      exact ⟨g, mem_cons_of_mem _ hg, hw, hp⟩

variable {f : FldCacheEntry}

theorem tidy_cons : Tidy (f :: l) ↔ f.fceRange.lsrStart < f.fceRange.lsrEnd ∧
      (∀ g ∈ l, f.fceRange.lsrEnd ≤ g.fceRange.lsrStart) ∧ Tidy l := by
  constructor
  · rintro ⟨hs, hn⟩
    obtain ⟨hf, hs'⟩ := pairwise_cons.mp hs
    obtain ⟨hn, hnl⟩ := forall_mem_cons.mp hn
    exact ⟨hn, hf, hs', hnl⟩
  · rintro ⟨hf, hsep, hs, hn⟩
    exact ⟨pairwise_cons.mpr ⟨hsep, hs⟩, forall_mem_cons.mpr ⟨hf, hn⟩⟩

theorem tidy_nil : Tidy [] := ⟨Pairwise.nil, fun _ h => absurd h not_mem_nil⟩

/-- In a list in order, an entry that holds the sequence decides. -/
theorem Tidy.cachedAt_of_mem (h : Tidy l)
    (hf : f ∈ l) (hw : luSeqRangeWithin f.fceRange seq = true) :
    cachedAt l seq = some (f.fceRange.lsrIndex, f.fceRange.lsrFlags) := by
  induction l with
  | nil => cases hf
  | cons g l ih =>
    obtain ⟨-, hsep, hl⟩ := tidy_cons.mp h
    rw [cachedAt]
    rcases mem_cons.mp hf with rfl | hf
    · rw [if_pos hw]
    · have hg : ¬ luSeqRangeWithin g.fceRange seq = true := by
        rw [luSeqRangeWithin_iff] at hw ⊢
        have := hsep f hf
        omega
      rw [if_neg hg]
      exact ih hl hf

theorem Tidy.fixable (h : Tidy (f :: l)) : Fixable (f :: l) := by
  obtain ⟨hf, hsep, hl⟩ := tidy_cons.mp h
  refine .fresh f l hf hl (fun g hg => ?_) fun g hg _ => hsep g hg
  have := hsep g hg
  omega

/-- A fixable list stays fixable when its first entry is stretched downwards. -/
theorem Fixable.stretch {n : FldCacheEntry} (h : Fixable (n :: l))
    {s : ℕ} (hs : s ≤ n.fceRange.lsrStart) :
    Fixable ({ n with fceRange := { n.fceRange with lsrStart := s } } :: l) := by
  cases h with
  | fresh _ _ hn hl hle hfl =>
    exact .fresh _ _ (Nat.lt_of_le_of_lt hs hn) hl (fun g hg => Nat.le_trans hs (hle g hg)) hfl
  | old _ _ hn hsep hl => exact .old _ _ (Nat.lt_of_le_of_lt hs hn) hsep hl

/-! ## One walk -/

open FldCacheEntry (fceId)

/-- What a walk over `l` achieves. -/
structure WalkSpec (l : List FldCacheEntry) (w : FixWalk) : Prop where
  located : ∀ seq, cachedAt w.entries seq = cachedAt l seq
  lower : ∀ b, (∀ f ∈ l, b ≤ f.fceRange.lsrStart) → ∀ f ∈ w.entries, b ≤ f.fceRange.lsrStart
  done : w.restart = false → Tidy w.entries
  again : w.restart = true → Fixable w.entries ∧ fixMeasure w.entries < fixMeasure l
  ids : (w.entries.map fceId ++ w.deleted).Perm (l.map fceId)

/-- A walk may first pass an entry that ends before the rest starts. -/
theorem WalkSpec.keep {w : FixWalk}
    (hw : WalkSpec l w) (hf : f.fceRange.lsrStart < f.fceRange.lsrEnd)
    (hsep : ∀ g ∈ l, f.fceRange.lsrEnd ≤ g.fceRange.lsrStart) : WalkSpec (f :: l) (w.keep f) where
  located seq := by
    change cachedAt (f :: w.entries) seq = cachedAt (f :: l) seq
    rw [cachedAt, cachedAt, hw.located]
  lower b hb := by
    obtain ⟨hbf, hb⟩ := forall_mem_cons.mp hb
    exact forall_mem_cons.mpr ⟨hbf, hw.lower b hb⟩
  done hr := tidy_cons.mpr ⟨hf, hw.lower _ hsep, hw.done hr⟩
  again hr := by
    obtain ⟨hfix, hlt⟩ := hw.again hr
    refine ⟨.old _ _ hf (hw.lower _ hsep) hfix, ?_⟩
    simp only [fixMeasure, FixWalk.keep, map_cons, sum_cons] at hlt ⊢
    omega
  ids := hw.ids.cons f.fceId

/-- A walk may first merge an entry into the one it touches. -/
theorem WalkSpec.merge {f n : FldCacheEntry} {w : FixWalk}
    (hf : f.fceRange.lsrStart < f.fceRange.lsrEnd) (hn : n.fceRange.lsrStart < n.fceRange.lsrEnd)
    (htouch : f.fceRange.lsrEnd = n.fceRange.lsrStart)
    (hidx : f.fceRange.lsrIndex = n.fceRange.lsrIndex)
    (hfl : f.fceRange.lsrFlags = n.fceRange.lsrFlags)
    (hw : WalkSpec ({ n with fceRange := { n.fceRange with lsrStart := f.fceRange.lsrStart } } :: l)
      w) : WalkSpec (f :: n :: l) (w.drop f) where
  located seq := by
    change cachedAt w.entries seq = _
    rw [hw.located]
    simp only [cachedAt, luSeqRangeWithin_iff]
    split
    · split
      · rw [hidx, hfl]
      · rw [if_pos (by omega)]
    · rw [if_neg (by omega), if_neg (by omega)]
  lower b hb := by
    simp only [forall_mem_cons] at hb
    exact hw.lower b (forall_mem_cons.mpr ⟨hb.1, hb.2.2⟩)
  done hr := hw.done hr
  again hr := by
    obtain ⟨hfix, hlt⟩ := hw.again hr
    refine ⟨hfix, Nat.lt_of_lt_of_le hlt ?_⟩
    simp only [fixMeasure, map_cons, sum_cons]
    omega
  ids := (perm_middle).trans (hw.ids.cons f.fceId)

/-- A fresh entry `c` reaches into the entry `n` behind it. A walk that deletes `c` and restarts,
with the range `r` in `n`. -/
theorem walkSpec_replace {c n : FldCacheEntry} {r : LuSeqRange}
    (hstart : r.lsrStart = c.fceRange.lsrStart)
    (hloc : ∀ seq, cachedAt ({ n with fceRange := r } :: l) seq = cachedAt (c :: n :: l) seq)
    (hfix : Fixable ({ n with fceRange := r } :: l))
    (hlt : fixMeasure ({ n with fceRange := r } :: l) < fixMeasure (c :: n :: l)) :
    WalkSpec (c :: n :: l) ⟨true, { n with fceRange := r } :: l, [c.fceId]⟩ := by
  refine ⟨hloc, fun b hb => ?_, nofun, fun _ => ⟨hfix, hlt⟩, perm_append_singleton ..⟩
  simp only [forall_mem_cons] at hb ⊢
  exact ⟨hstart ▸ hb.1, hb.2.2⟩

/-- The head of a fixable list with something behind it: either it ends before
the rest, which is fixable, or it is the fresh entry and reaches into the next. -/
theorem Fixable.head {f n : FldCacheEntry} (h : Fixable (f :: n :: l)) :
    f.fceRange.lsrStart < f.fceRange.lsrEnd ∧ f.fceRange.lsrStart ≤ n.fceRange.lsrStart ∧
      n.fceRange.lsrStart < n.fceRange.lsrEnd ∧
      (((∀ g ∈ n :: l, f.fceRange.lsrEnd ≤ g.fceRange.lsrStart) ∧ Fixable (n :: l)) ∨
        (n.fceRange.lsrStart < f.fceRange.lsrEnd ∧ Tidy (n :: l) ∧
          (∀ g ∈ n :: l, f.fceRange.lsrStart ≤ g.fceRange.lsrStart) ∧
          ∀ g ∈ n :: l, f.fceRange.lsrFlags ≠ g.fceRange.lsrFlags →
            f.fceRange.lsrEnd ≤ g.fceRange.lsrStart)) := by
  cases h with
  | fresh _ _ hf hl hle hty =>
    refine ⟨hf, hle n mem_cons_self, hl.nonempty n mem_cons_self, ?_⟩
    rcases Nat.lt_or_ge n.fceRange.lsrStart f.fceRange.lsrEnd with hlt | hge
    · exact .inr ⟨hlt, hl, hle, hty⟩
    · obtain ⟨hn, hsep, -⟩ := tidy_cons.mp hl
      refine .inl ⟨forall_mem_cons.mpr ⟨hge, fun g hg => ?_⟩, hl.fixable⟩
      have := hsep g hg
      omega
  | old _ _ hf hsep hl =>
    have hfn := hsep n mem_cons_self
    have hn : n.fceRange.lsrStart < n.fceRange.lsrEnd := by
      cases hl with
      | fresh _ _ hn | old _ _ hn => exact hn
    exact ⟨hf, by omega, hn, .inl ⟨hsep, hl⟩⟩

/-- What a walk does with its first two entries: the first one stays, is merged into the second one,
or reaches into it, which is repaired in one of three ways. -/
theorem fldFixWalk_cases {i j : ℕ} {c n : LuSeqRange} (hsane : c.lsrStart ≤ c.lsrEnd)
    (hcn : c.lsrStart ≤ n.lsrStart) : let walk := fldFixWalk ⟨i, c⟩ (⟨j, n⟩ :: l)
    ((c.lsrFlags = n.lsrFlags → c.lsrEnd ≤ n.lsrStart) ∧
      walk = (fldFixWalk ⟨j, n⟩ l).map (.keep ⟨i, c⟩)) ∨
    c.lsrFlags = n.lsrFlags ∧
      (c.lsrEnd = n.lsrStart ∧ c.lsrIndex = n.lsrIndex ∧
        walk = (fldFixWalk ⟨j, { n with lsrStart := c.lsrStart }⟩ l).map (.drop ⟨i, c⟩) ∨
      n.lsrStart < c.lsrEnd ∧
        (c.lsrIndex = n.lsrIndex ∧ walk = some ⟨true,
          ⟨j, { n with lsrStart := c.lsrStart, lsrEnd := max c.lsrEnd n.lsrEnd }⟩ :: l, [i]⟩ ∨
        n.lsrEnd ≤ c.lsrEnd ∧ walk = some ⟨true, ⟨j, c⟩ :: l, [i]⟩ ∨
        c.lsrEnd < n.lsrEnd ∧
          walk = some ⟨true, ⟨i, c⟩ :: ⟨j, { n with lsrStart := c.lsrEnd }⟩ :: l, []⟩)) := by
  intro walk
  simp only [walk, fldFixWalk, luSeqRangeIsSane, hsane, decide_true, not_true_eq_false, if_false]
  by_cases hfl : c.lsrFlags = n.lsrFlags
  · rw [if_neg (not_not.mpr hfl), if_neg (not_not.mpr hcn)]
    by_cases htouch : c.lsrEnd = n.lsrStart
    · rw [if_pos htouch]
      by_cases hidx : c.lsrIndex = n.lsrIndex
      · rw [if_neg (not_not.mpr hidx)]
        exact .inr ⟨hfl, .inl ⟨htouch, hidx, rfl⟩⟩
      · rw [if_pos hidx]
        exact .inl ⟨fun _ => Nat.le_of_eq htouch, rfl⟩
    · rw [if_neg htouch]
      by_cases hov : n.lsrStart < c.lsrEnd
      · rw [if_pos hov]
        refine .inr ⟨hfl, .inr ⟨hov, ?_⟩⟩
        by_cases hidx : c.lsrIndex = n.lsrIndex
        · rw [if_pos hidx]
          exact .inl ⟨hidx, rfl⟩
        · rw [if_neg hidx]
          by_cases hcov : n.lsrEnd ≤ c.lsrEnd
          · rw [if_pos hcov]
            exact .inr (.inl ⟨hcov, rfl⟩)
          · rw [if_neg hcov]
            exact .inr (.inr ⟨Nat.lt_of_not_le hcov, rfl⟩)
      · rw [if_neg hov, if_neg (by omega)]
        exact .inl ⟨fun _ => Nat.le_of_not_lt hov, rfl⟩
  · rw [if_pos hfl]
    exact .inl ⟨fun heq => absurd heq hfl, rfl⟩

/-- One walk over a fixable list succeeds. The induction is on the entries behind
the current one, which changes when it is merged into the next. -/
theorem fldFixWalk_spec (l : List FldCacheEntry) :
    ∀ f, Fixable (f :: l) → ∃ w, fldFixWalk f l = some w ∧ WalkSpec (f :: l) w := by
  induction l with
  | nil =>
    intro f h
    have hf : f.fceRange.lsrStart < f.fceRange.lsrEnd := by
      cases h with
      | fresh _ _ hf | old _ _ hf => exact hf
    refine ⟨⟨false, [f], []⟩, ?_, fun _ => rfl, fun b hb => hb, fun _ => ?_,
      nofun, List.Perm.refl _⟩
    · simp [fldFixWalk, luSeqRangeIsSane, Nat.le_of_lt hf]
    · exact tidy_cons.mpr ⟨hf, fun _ h => absurd h not_mem_nil, tidy_nil⟩
  | cons n l ih =>
    intro f h
    obtain ⟨hf, hfn, hn, hcase⟩ := h.head
    have hwalk := fldFixWalk_cases (i := f.fceId) (j := n.fceId) (l := l) (Nat.le_of_lt hf) hfn
    rcases hcase with ⟨hsep, hfix⟩ | ⟨hov, hl, hle, hty⟩
    · -- the current entry ends before the next: it stays, or is merged into it
      have hfe := hsep n mem_cons_self
      rcases hwalk with ⟨-, hwalk⟩ | ⟨hfl, ⟨htouch, hidx, hwalk⟩ | ⟨hov, -⟩⟩
      · obtain ⟨w, hw, hspec⟩ := ih n hfix
        rw [hwalk, hw]
        exact ⟨_, rfl, hspec.keep hf hsep⟩
      · obtain ⟨w, hw, hspec⟩ := ih _ (hfix.stretch hfn)
        rw [hwalk, hw]
        exact ⟨_, rfl, .merge hf hn htouch hidx hfl hspec⟩
      · omega
    · -- the fresh entry reaches into the next one, which has its type
      rcases hwalk with ⟨hend, -⟩ | ⟨hfl, ⟨htouch, -⟩ | ⟨-, hrepair⟩⟩
      · have := hty n mem_cons_self fun hfl => by
          omega
        omega
      · omega
      · obtain ⟨-, hsep, hl'⟩ := tidy_cons.mp hl
        rcases hrepair with ⟨hidx, hwalk⟩ | ⟨hcov, hwalk⟩ | ⟨hout, hwalk⟩
        · -- same server: the two become one entry
          refine ⟨_, hwalk, walkSpec_replace rfl (fun seq => ?_) ?_ ?_⟩
          · simp only [cachedAt, luSeqRangeWithin_iff]
            split
            · split
              · rw [hidx, hfl]
              · rw [if_pos (by omega)]
            · rw [if_neg (by omega), if_neg (by omega)]
          · refine .fresh _ _ (Nat.lt_of_lt_of_le hf (Nat.le_max_left ..)) hl'
              (forall_mem_cons.mp hle).2 fun g hg hne => ?_
            -- an entry of the other type lies behind both
            exact Nat.max_le.mpr ⟨hty g (mem_cons_of_mem _ hg) (hfl ▸ hne), hsep g hg⟩
          · simp only [fixMeasure, map_cons, sum_cons]
            omega
        · -- the entry is covered: the fresh range takes its place
          refine ⟨_, hwalk, walkSpec_replace rfl (fun seq => ?_) ?_ ?_⟩
          · simp only [cachedAt, luSeqRangeWithin_iff]
            split
            · rfl
            · rw [if_neg (by omega)]
          · exact .fresh _ _ hf hl' (forall_mem_cons.mp hle).2 (forall_mem_cons.mp hty).2
          · simp only [fixMeasure, map_cons, sum_cons]
            omega
        · -- the entry sticks out: it keeps what the fresh range leaves
          refine ⟨_, hwalk, fun seq => ?_, fun b hb => ?_, nofun, fun _ => ⟨?_, ?_⟩, ?_⟩
          · simp only [cachedAt, luSeqRangeWithin_iff]
            split
            · rfl
            · split
              · rw [if_pos (by omega)]
              · rw [if_neg (by omega)]
          · simp only [forall_mem_cons] at hb ⊢
            exact ⟨hb.1, Nat.le_trans hb.1 (Nat.le_of_lt hf), hb.2.2⟩
          · refine Tidy.fixable (tidy_cons.mpr ⟨hf, ?_, tidy_cons.mpr ⟨hout, hsep, hl'⟩⟩)
            refine forall_mem_cons.mpr ⟨Nat.le_refl _, fun g hg => ?_⟩
            exact Nat.le_trans (Nat.le_of_lt hout) (hsep g hg)
          · simp only [fixMeasure, map_cons, sum_cons]
            omega
          · rw [append_nil]
            exact List.Perm.refl _

/-! ## The whole pass -/

/-- With more fuel than the list covers places, the pass ends with a list in
order that means what it meant, and each entry is in the list or was deleted. -/
theorem fldFixLoop_spec (fuel : ℕ) : ∀ l, Fixable l → fixMeasure l < fuel →
      ∃ l' del, fldFixLoop fuel l = some (l', del) ∧ Tidy l' ∧
        (∀ seq, cachedAt l' seq = cachedAt l seq) ∧ (l'.map fceId ++ del).Perm (l.map fceId) := by
  induction fuel with
  | zero => intro l _ hlt; omega
  | succ fuel ih =>
    intro l h hlt
    cases l with
    | nil => cases h
    | cons f l =>
      obtain ⟨w, hw, hspec⟩ := fldFixWalk_spec l f h
      simp only [fldFixLoop, hw]
      cases hr : w.restart with
      | false => exact ⟨_, _, rfl, hspec.done hr, hspec.located, hspec.ids⟩
      | true =>
        obtain ⟨hfix, hless⟩ := hspec.again hr
        obtain ⟨l', del, hrun, htidy, hloc, hids⟩ := ih w.entries hfix (by omega)
        refine ⟨l', w.deleted ++ del, by rw [hrun]; rfl, htidy,
          fun seq => (hloc seq).trans (hspec.located seq), ?_⟩
        have hswap : (l'.map fceId ++ (w.deleted ++ del)).Perm
            (l'.map fceId ++ del ++ w.deleted) := by
          rw [append_assoc]
          exact perm_append_comm.append_left _
        exact (hswap.trans (hids.append_right _)).trans hspec.ids

/-! ## Any list with one entry out of place

Where the fresh entry reaches over entries of another type, or an older one over it, the list does
not keep its meaning, but the pass still ends. -/

/-- The ranges are sane, sorted by start from `s` on, and none starts inside two of those before it:
`p` and `q` are the furthest two ends so far. -/
def Loose (s p q : ℕ) : List FldCacheEntry → Prop
  | [] => True
  | ⟨_, r⟩ :: l => s ≤ r.lsrStart ∧ r.lsrStart ≤ r.lsrEnd ∧ q ≤ r.lsrStart ∧
      Loose r.lsrStart (max p r.lsrEnd) (max q (min p r.lsrEnd)) l

/-- `b` does not start before `a`, and `a` does not reach into it if they have one type. -/
def Follows : FldCacheEntry → FldCacheEntry → Prop
  | ⟨_, a⟩, ⟨_, b⟩ => a.lsrStart ≤ b.lsrStart ∧ (a.lsrFlags = b.lsrFlags → a.lsrEnd ≤ b.lsrStart)

section

variable {s p q : ℕ}

theorem Loose.mono {s' p' q' : ℕ} (h : Loose s p q l) (hs : s' ≤ s) (hp : p' ≤ p) (hq : q' ≤ q) :
    Loose s' p' q' l := by
  induction l generalizing s p q s' p' q' with
  | nil => trivial
  | cons f l ih =>
    obtain ⟨hfs, hsane, hfq, hl⟩ := h
    exact ⟨by omega, hsane, by omega, ih hl (Nat.le_refl _) (by omega) (by omega)⟩

/-- Disjoint ranges behind one that may reach over them. -/
theorem loose_of_disjoint (hsane : ∀ f ∈ l, f.fceRange.lsrStart ≤ f.fceRange.lsrEnd)
    (hdis : l.Pairwise fun a b => a.fceRange.lsrEnd ≤ b.fceRange.lsrStart)
    (hs : ∀ f ∈ l, s ≤ f.fceRange.lsrStart ∧ q ≤ f.fceRange.lsrStart) : Loose s p q l := by
  induction l generalizing s p q with
  | nil => trivial
  | cons f l ih =>
    obtain ⟨hf, hdis⟩ := pairwise_cons.mp hdis
    obtain ⟨hsf, hsane⟩ := forall_mem_cons.mp hsane
    obtain ⟨⟨hfs, hfq⟩, hs⟩ := forall_mem_cons.mp hs
    refine ⟨hfs, hsf, hfq, ih hsane hdis fun g hg => ?_⟩
    have := hf g hg
    omega

/-- Disjoint ranges with one among them that may overlap others. -/
theorem loose_of_one {c : FldCacheEntry} {pre post : List FldCacheEntry}
    (hsane : ∀ f ∈ pre ++ c :: post, f.fceRange.lsrStart ≤ f.fceRange.lsrEnd)
    (hsorted : (pre ++ c :: post).Pairwise fun a b => a.fceRange.lsrStart ≤ b.fceRange.lsrStart)
    (hdis : (pre ++ post).Pairwise fun a b => a.fceRange.lsrEnd ≤ b.fceRange.lsrStart)
    (hs : ∀ f ∈ pre ++ c :: post, s ≤ f.fceRange.lsrStart ∧ q ≤ f.fceRange.lsrStart)
    (hp : ∀ f ∈ pre ++ post, p ≤ f.fceRange.lsrStart) : Loose s p q (pre ++ c :: post) := by
  induction pre generalizing s p q with
  | nil =>
    obtain ⟨hsc, hsane⟩ := forall_mem_cons.mp hsane
    obtain ⟨⟨hcs, hcq⟩, hs⟩ := forall_mem_cons.mp hs
    refine ⟨hcs, hsc, hcq, loose_of_disjoint hsane hdis fun f hf => ?_⟩
    have := hp f hf
    have := (pairwise_cons.mp hsorted).1 f hf
    omega
  | cons f pre ih =>
    obtain ⟨hle, hsorted⟩ := pairwise_cons.mp hsorted
    obtain ⟨hend, hdis⟩ := pairwise_cons.mp hdis
    obtain ⟨hsf, hsane⟩ := forall_mem_cons.mp hsane
    obtain ⟨⟨hfs, hfq⟩, hs⟩ := forall_mem_cons.mp hs
    have hfp := hp f mem_cons_self
    refine ⟨hfs, hsf, hfq, ih hsane hsorted hdis (fun g hg => ?_) fun g hg => ?_⟩
    · have := hle g hg
      omega
    · have := hend g hg
      omega

end

/-- What a walk over `f :: l` does: the list stays loose, and it is over or has made progress. -/
structure WalkEnds (s p q : ℕ) (f : FldCacheEntry) (l : List FldCacheEntry) (w : FixWalk) :
    Prop where
  loose : Loose s p q w.entries
  less : w.restart = true → fixMeasure w.entries < fixMeasure (f :: l)
  /-- the last walk leaves no overlap, and its list can follow what `f` could -/
  done : w.restart = false → ∀ x, Follows x f → (x :: w.entries).IsChain Follows

theorem fldFixWalk_ends (l : List FldCacheEntry) : ∀ f {s p q}, Loose s p q (f :: l) →
    ∃ w, fldFixWalk f l = some w ∧ WalkEnds s p q f l w := by
  induction l with
  | nil =>
    intro f s p q h
    refine ⟨⟨false, [f], []⟩, ?_, h, nofun, fun _ x hx => .cons_cons hx (.singleton f)⟩
    simp [fldFixWalk, luSeqRangeIsSane, h.2.1]
  | cons n l ih =>
    intro f s p q ⟨hfs, hsane, hfq, hnl⟩
    obtain ⟨hfn, hsn, hnq, hl⟩ := id hnl
    -- one entry with the range `r` in place of the two
    have hone : ∀ r : LuSeqRange, r.lsrStart = f.fceRange.lsrStart → r.lsrStart ≤ r.lsrEnd →
        r.lsrEnd ≤ max f.fceRange.lsrEnd n.fceRange.lsrEnd →
        Loose s p q (⟨n.fceId, r⟩ :: l) := by
      intro r hstart hsr hmax
      exact ⟨by omega, hsr, by omega, hl.mono (by omega) (by omega) (by omega)⟩
    rcases fldFixWalk_cases hsane hfn with
      ⟨hend, hwalk⟩ | ⟨hfl, ⟨htouch, -, hwalk⟩ | ⟨hov, hrepair⟩⟩
    · obtain ⟨w, hw, hloose, hless, hdone⟩ := ih n hnl
      rw [hwalk, hw]
      refine ⟨_, rfl, ⟨hfs, hsane, hfq, hloose⟩, fun hr => ?_, fun hr x hx => ?_⟩
      · have := hless hr
        simp only [fixMeasure, FixWalk.keep, map_cons, sum_cons] at this ⊢
        omega
      · exact .cons_cons hx (hdone hr f ⟨hfn, hend⟩)
    · obtain ⟨w, hw, hloose, hless, hdone⟩ :=
        ih _ (hone { n.fceRange with lsrStart := f.fceRange.lsrStart } rfl (Nat.le_trans hfn hsn)
          (Nat.le_max_right ..))
      rw [hwalk, hw]
      refine ⟨_, rfl, hloose, fun hr => ?_, fun hr x hx => hdone hr x ⟨hx.1, fun h => ?_⟩⟩
      · have := hless hr
        simp only [fixMeasure, FixWalk.drop, map_cons, sum_cons] at this ⊢
        omega
      · exact hx.2 (h.trans hfl.symm)
    · rcases hrepair with ⟨-, hwalk⟩ | ⟨hcov, hwalk⟩ | ⟨hout, hwalk⟩
      · refine ⟨_, hwalk, hone _ rfl ?_ (Nat.le_refl _), fun _ => ?_, nofun⟩
        · exact Nat.le_trans hsane (Nat.le_max_left ..)
        · simp only [fixMeasure, map_cons, sum_cons]
          omega
      · refine ⟨_, hwalk, hone _ rfl hsane (Nat.le_max_left ..), fun _ => ?_, nofun⟩
        simp only [fixMeasure, map_cons, sum_cons]
        omega
      · -- the first two both reach to the new start, so what is behind them is behind it
        refine ⟨_, hwalk, ⟨hfs, hsane, hfq, hsane, Nat.le_of_lt hout, by dsimp only; omega, ?_⟩,
          fun _ => ?_, nofun⟩
        · cases l with
          | nil => trivial
          | cons c l =>
            obtain ⟨hc, hsc, hcq, hl⟩ := hl
            exact ⟨by dsimp only; omega, hsc, hcq, hl⟩
        · simp only [fixMeasure, map_cons, sum_cons]
          omega

theorem fldFixLoop_ends (fuel : ℕ) : ∀ l, Loose 0 0 0 l → fixMeasure l < fuel →
    ∃ l' del, fldFixLoop fuel l = some (l', del) ∧ l'.IsChain Follows := by
  induction fuel with
  | zero => intro l _ hlt; omega
  | succ fuel ih =>
    intro l h hlt
    cases l with
    | nil => exact ⟨[], [], rfl, .nil⟩
    | cons f l =>
      obtain ⟨w, hw, hloose, hless, hdone⟩ := fldFixWalk_ends l f h
      simp only [fldFixLoop, hw]
      cases hr : w.restart with
      | false =>
        have := hdone hr ⟨0, 0, 0, 0, 0⟩ ⟨Nat.zero_le _, fun _ => Nat.zero_le _⟩
        exact ⟨_, _, rfl, this.of_cons⟩
      | true =>
        have := hless hr
        obtain ⟨l', del, hrun, hfix⟩ := ih w.entries hloose (by omega)
        rw [hrun]
        exact ⟨_, _, rfl, hfix⟩

/-- `fld_fix_new_list` ends for every list of ranges that is sorted by start and disjoint except
around one entry `c`: no assertion fails, and it leaves a sorted list in which no range reaches into
the next one of its type. -/
theorem fldFixNewList_ends (cache : FldCache) (pre post : List FldCacheEntry) (c : FldCacheEntry)
    (hl : cache.fciEntries = pre ++ c :: post)
    (hsane : ∀ f ∈ cache.fciEntries, luSeqRangeIsSane f.fceRange = true)
    (hsorted : cache.fciEntries.Pairwise fun a b => a.fceRange.lsrStart ≤ b.fceRange.lsrStart)
    (hdis : (pre ++ post).Pairwise fun a b => a.fceRange.lsrEnd ≤ b.fceRange.lsrStart) :
    ∃ cache', fldFixNewList cache = some cache' ∧
      cache'.fciEntries.Pairwise (fun a b => a.fceRange.lsrStart ≤ b.fceRange.lsrStart) ∧
      cache'.fciEntries.IsChain fun a b => a.fceRange.lsrFlags = b.fceRange.lsrFlags →
        a.fceRange.lsrEnd ≤ b.fceRange.lsrStart := by
  rw [hl] at hsane hsorted
  have hloose : Loose 0 0 0 (pre ++ c :: post) :=
    loose_of_one (fun f hf => of_decide_eq_true (hsane f hf)) hsorted hdis
      (fun _ _ => ⟨Nat.zero_le _, Nat.zero_le _⟩) fun _ _ => Nat.zero_le _
  obtain ⟨l', del, hrun, hfix⟩ := fldFixLoop_ends _ _ hloose (Nat.lt_succ_self _)
  rw [fldFixNewList, hl, hrun]
  exact ⟨_, rfl, @IsChain.pairwise _ _ _ ⟨Nat.le_trans⟩ (hfix.imp fun _ _ h => h.1),
    hfix.imp fun _ _ h => h.2⟩

/-- A fresh range over the end of one range and the whole of the next one. -/
theorem fldFixNewList_ends_over : ∃ cache', fldFixNewList { fldCacheInit 9 9 true with fciEntries :=
      [⟨0, 0, 10, 0, 0⟩, ⟨1, 5, 30, 1, 0⟩, ⟨2, 10, 20, 2, 0⟩] } = some cache' ∧
    cache'.fciEntries.map (fun f => (f.fceRange.lsrStart, f.fceRange.lsrEnd)) = [(0, 10), (10, 30)] ∧
    cache'.fciEntries.IsChain fun a b => a.fceRange.lsrFlags = b.fceRange.lsrFlags →
      a.fceRange.lsrEnd ≤ b.fceRange.lsrStart := by
  obtain ⟨cache', hrun, -, hchain⟩ := fldFixNewList_ends { fldCacheInit 9 9 true with fciEntries :=
      [⟨0, 0, 10, 0, 0⟩, ⟨1, 5, 30, 1, 0⟩, ⟨2, 10, 20, 2, 0⟩] }
    [⟨0, 0, 10, 0, 0⟩] [⟨2, 10, 20, 2, 0⟩] ⟨1, 5, 30, 1, 0⟩ rfl (by decide) (by decide) (by decide)
  refine ⟨cache', hrun, ?_, hchain⟩
  cases hrun
  rfl

end Lustre
