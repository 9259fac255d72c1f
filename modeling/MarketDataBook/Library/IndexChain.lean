import Mathlib.Data.List.Nodup
import Mathlib.Logic.Function.Basic

/-! Intrusive lists over an arbitrary index type: the links live in two maps
`next` and `prev`, a distinguished index `null` ends every list. No bound on the
index type and no allocator is assumed. -/
namespace IndexChain
variable {ι : Type*}

/-- `l` is what following `next` from `a` visits before `null`. -/
def Chain (next : ι → ι) (null : ι) : ι → List ι → Prop
  | a, [] => a = null
  | a, x::xs => a = x ∧ x ≠ null ∧ Chain next null (next x) xs

def Linked (next prev : ι → ι) : ι → List ι → ι → Prop
  | _, [], _ => True
  | before, x::xs, after =>
    prev x = before ∧ next x = xs.headD after ∧ Linked next prev x xs after

/-- Follow `next` for at most `fuel` links; `none` if `null` was not met. -/
def walk [DecidableEq ι] (next : ι → ι) (null : ι) : Nat → ι → Option (List ι)
  | 0, a => if a = null then some [] else none
  | fuel+1, a => if a = null then some [] else (walk next null fuel (next a)).map (a :: ·)

theorem headD_append (l m : List ι) (a : ι) : (l ++ m).headD a = l.headD (m.headD a) := by
  cases l <;> rfl

theorem headD_mem (l : List ι) (a : ι) (h : l ≠ []) : l.headD a ∈ l := by
  cases l with
  | nil => exact absurd rfl h
  | cons x xs => simp

theorem getLastD_mem (l : List ι) (a : ι) (h : l ≠ []) : l.getLastD a ∈ l := by
  rw [List.getLastD_eq_getLast?, List.getLast?_eq_some_getLast h]
  exact List.getLast_mem h

theorem getLastD_append (l m : List ι) (a : ι) :
    (l ++ m).getLastD a = m.getLastD (l.getLastD a) := by
  induction l generalizing a with
  | nil => rfl
  | cons x xs ih => simpa only [List.cons_append, List.getLastD_cons] using ih x

theorem Chain.congr {next next' : ι → ι} {null a : ι} {l : List ι}
    (h : Chain next null a l) (hn : ∀ x ∈ l, next' x = next x) : Chain next' null a l := by
  induction l generalizing a with
  | nil => exact h
  | cons x xs ih =>
    refine ⟨h.1, h.2.1, ?_⟩
    rw [hn x (by simp)]
    exact ih h.2.2 (fun y hy => hn y (List.mem_cons_of_mem x hy))

theorem Chain.null_not_mem {next : ι → ι} {null a : ι} {l : List ι}
    (h : Chain next null a l) : null ∉ l := by
  induction l generalizing a with
  | nil => simp
  | cons x xs ih =>
    intro hm
    rcases List.mem_cons.mp hm with hx | hx
    · exact h.2.1 hx.symm
    · exact ih h.2.2 hx

theorem Chain.eq_nil_iff {next : ι → ι} {null a : ι} {l : List ι}
    (h : Chain next null a l) : l = [] ↔ a = null := by
  cases l with
  | nil => exact ⟨fun _ => h, fun _ => rfl⟩
  | cons x xs =>
    constructor
    · intro hl; cases hl
    · intro ha; exact absurd (h.1.symm.trans ha) h.2.1

theorem walk_eq_some [DecidableEq ι] {next : ι → ι} {null a : ι} {l : List ι} {fuel : Nat}
    (h : Chain next null a l) (hf : l.length ≤ fuel) : walk next null fuel a = some l := by
  induction l generalizing a fuel with
  | nil =>
    have ha : a = null := h
    cases fuel <;> simp [walk, ha]
  | cons x xs ih =>
    cases fuel with
    | zero => simp at hf
    | succ fuel =>
      obtain ⟨rfl, hx, ht⟩ := h
      simp [walk, hx, ih ht (by simpa using hf)]

theorem linked_append (next prev : ι → ι) (b a : ι) (l m : List ι) :
    Linked next prev b (l ++ m) a ↔
      Linked next prev b l (m.headD a) ∧ Linked next prev (l.getLastD b) m a := by
  induction l generalizing b with
  | nil => simp [Linked]
  | cons x xs ih =>
    simp only [List.cons_append, Linked, ih x, headD_append, List.getLastD_cons, and_assoc]

theorem Linked.congr {next prev next' prev' : ι → ι} {b a : ι} {l : List ι}
    (h : Linked next prev b l a) (hn : ∀ x ∈ l, next' x = next x)
    (hp : ∀ x ∈ l, prev' x = prev x) : Linked next' prev' b l a := by
  induction l generalizing b with
  | nil => trivial
  | cons x xs ih =>
    refine ⟨(hp x (by simp)).trans h.1, (hn x (by simp)).trans h.2.1, ?_⟩
    exact ih h.2.2 (fun y hy => hn y (List.mem_cons_of_mem x hy))
      (fun y hy => hp y (List.mem_cons_of_mem x hy))

theorem Linked.chain {next prev : ι → ι} {b null : ι} {l : List ι}
    (h : Linked next prev b l null) (hnull : null ∉ l) :
    Chain next null (l.headD null) l := by
  induction l generalizing b with
  | nil => rfl
  | cons x xs ih =>
    have hx : x ≠ null := fun he => hnull (by simp [he])
    refine ⟨rfl, hx, ?_⟩
    rw [h.2.1]
    exact ih h.2.2 (fun hm => hnull (List.mem_cons_of_mem x hm))

theorem Linked.next_mem {next prev : ι → ι} {b a x : ι} {l : List ι}
    (h : Linked next prev b l a) (hx : x ∈ l) (ha : next x ≠ a) :
    next x ∈ l ∧ prev (next x) = x := by
  induction l generalizing b with
  | nil => cases hx
  | cons y ys ih =>
    obtain rfl | hx := List.mem_cons.mp hx
    · cases ys with
      | nil => exact absurd h.2.1 ha
      | cons z zs =>
        have hz : next x = z := h.2.1
        rw [hz]
        exact ⟨by simp, h.2.2.1⟩
    · obtain ⟨hm, hp⟩ := ih h.2.2 hx
      exact ⟨List.mem_cons_of_mem y hm, hp⟩

theorem Linked.prev_mem {next prev : ι → ι} {b a x : ι} {l : List ι}
    (h : Linked next prev b l a) (hx : x ∈ l) (hb : prev x ≠ b) :
    prev x ∈ l ∧ next (prev x) = x := by
  obtain ⟨l, m, rfl⟩ := List.append_of_mem hx
  rw [linked_append] at h
  obtain ⟨hl, hpx, -⟩ := h
  obtain rfl | ⟨k, z, rfl⟩ := List.eq_nil_or_concat' l
  · exact absurd hpx hb
  · have hz : prev x = z := by rw [hpx, getLastD_append]; rfl
    rw [linked_append] at hl
    rw [hz]
    exact ⟨by simp, hl.2.2.1⟩

/-- A list whose last index gets a new successor. -/
theorem Linked.relink_last [DecidableEq ι] {next prev next' prev' : ι → ι} {b a a' : ι}
    {l : List ι} (h : Linked next prev b l a) (hd : l.Nodup)
    (hn : ∀ x ∈ l, next' x = if x = l.getLastD b then a' else next x)
    (hp : ∀ x ∈ l, prev' x = prev x) : Linked next' prev' b l a' := by
  rcases List.eq_nil_or_concat' l with rfl | ⟨m, z, rfl⟩
  · trivial
  · rw [linked_append] at h ⊢
    have hlast : (m ++ [z]).getLastD b = z := by rw [getLastD_append]; rfl
    rw [hlast] at hn
    have hz : z ∉ m := fun hm =>
      (List.nodup_append.mp hd).2.2 z hm z (by simp) rfl
    refine ⟨h.1.congr ?_ (fun x hx => hp x (by simp [hx])), ?_⟩
    · intro x hx
      have hxz : ¬ x = z := fun he => hz (he ▸ hx)
      simpa [hxz] using hn x (by simp [hx])
    · refine ⟨(hp z (by simp)).trans h.2.1, ?_, trivial⟩
      simpa using hn z (by simp)

/-- A list whose first index gets a new predecessor. -/
theorem Linked.relink_head [DecidableEq ι] {next prev next' prev' : ι → ι} {b b' a : ι}
    {l : List ι} (h : Linked next prev b l a) (hd : l.Nodup)
    (hp : ∀ x ∈ l, prev' x = if x = l.headD a then b' else prev x)
    (hn : ∀ x ∈ l, next' x = next x) : Linked next' prev' b' l a := by
  cases l with
  | nil => trivial
  | cons x xs =>
    refine ⟨by simpa using hp x (by simp), (hn x (by simp)).trans h.2.1, ?_⟩
    refine h.2.2.congr (fun y hy => hn y (List.mem_cons_of_mem x hy)) ?_
    intro y hy
    have hxy : ¬ y = x := fun he => (List.nodup_cons.mp hd).1 (he ▸ hy)
    simpa [hxy] using hp y (List.mem_cons_of_mem x hy)

/-- Append `x` behind the last index of a list. -/
theorem Linked.push_back [DecidableEq ι] {next prev next' prev' : ι → ι} {b null x : ι}
    {l : List ι} (h : Linked next prev b l null) (hd : l.Nodup)
    (hn : ∀ y ∈ l, next' y = if y = l.getLastD b then x else next y)
    (hp : ∀ y ∈ l, prev' y = prev y) (hnx : next' x = null) (hpx : prev' x = l.getLastD b) :
    Linked next' prev' b (l ++ [x]) null := by
  rw [linked_append]
  exact ⟨h.relink_last hd hn hp, hpx, hnx, trivial⟩

/-- Unlink `x` wherever it stands: its two neighbours are joined. -/
theorem Linked.unlink [DecidableEq ι] {next prev next' prev' : ι → ι} {null x : ι}
    {l m : List ι} (h : Linked next prev null (l ++ x::m) null)
    (hd : (l ++ x::m).Nodup) (hnull : null ∉ l ++ x::m)
    (hn : ∀ y ∈ l ++ m, next' y = if y = prev x then next x else next y)
    (hp : ∀ y ∈ l ++ m, prev' y = if y = next x then prev x else prev y) :
    Linked next' prev' null (l ++ m) null := by
  rw [linked_append] at h ⊢
  obtain ⟨hl, hpx, hnx, hm⟩ := h
  rw [hpx, hnx] at hn hp
  obtain ⟨hdl, hdm, hdis⟩ := List.nodup_append.mp hd
  have hdm' := (List.nodup_cons.mp hdm).2
  have hlm : ∀ y ∈ l, y ∉ m := fun y hy hym => hdis y hy y (List.mem_cons_of_mem x hym) rfl
  have hlast : ∀ y ∈ m, y ≠ l.getLastD null := by
    intro y hy he
    by_cases hle : l = []
    · subst hle
      exact hnull (by simp only [List.getLastD_nil] at he; simp [← he, hy])
    · exact hlm y (he ▸ getLastD_mem l null hle) hy
  have hhead : ∀ y ∈ l, y ≠ m.headD null := by
    intro y hy he
    by_cases hme : m = []
    · subst hme
      exact hnull (by simp only [List.headD_nil] at he; simp [← he, hy])
    · exact hlm y hy (he ▸ headD_mem m null hme)
  constructor
  · refine hl.relink_last hdl (fun y hy => hn y (by simp [hy])) ?_
    intro y hy
    rw [hp y (by simp [hy]), if_neg (hhead y hy)]
  · refine hm.relink_head hdm' (fun y hy => hp y (by simp [hy])) ?_
    intro y hy
    rw [hn y (by simp [hy]), if_neg (hlast y hy)]

end IndexChain
