import CodeEditing.Pattern.Basic

/-! What a pattern takes.

`Pattern.Takes` says between which places of a text a match of a pattern may lie, by the parts of the
pattern and without regard to which match is preferred. Some things are seen from the pattern alone:
what no match takes (`Pattern.avoids`), what every match takes (`Pattern.needs`) and how many characters
at least (`Takes.least_le`, `Takes.index_lt`). -/
namespace CodeEditing

/-! ### Reading -/

/-- The characters between two places. -/
def Spot.Reads : Spot → List Char → Spot → Prop
  | s, [], t => t = s
  | s, c :: cs, t => ∃ rest, s.rest = c :: rest ∧ Spot.Reads ⟨some c, s.index + 1, rest⟩ cs t

namespace Spot.Reads
variable {s t u : Spot} {a b : List Char}

theorem append (h : s.Reads a t) (hb : t.Reads b u) : s.Reads (a ++ b) u := by
  induction a generalizing s with
  | nil => exact h ▸ hb
  | cons c cs ih =>
    obtain ⟨rest, hr, h⟩ := h
    exact ⟨rest, hr, ih h⟩

theorem rest_eq (h : s.Reads a t) : s.rest = a ++ t.rest := by
  induction a generalizing s with
  | nil => exact h ▸ rfl
  | cons c cs ih =>
    obtain ⟨rest, hr, h⟩ := h
    rw [hr, List.cons_append, ← ih h]

theorem index_eq (h : s.Reads a t) : t.index = s.index + a.length := by
  induction a generalizing s with
  | nil => exact h ▸ rfl
  | cons c cs ih =>
    obtain ⟨rest, hr, h⟩ := h
    rw [ih h, List.length_cons]
    exact Nat.succ_add_eq_add_succ s.index cs.length

/-- What follows can be read. -/
theorem ofRest (h : s.rest = a ++ b) : ∃ t, s.Reads a t ∧ t.rest = b := by
  induction a generalizing s with
  | nil => exact ⟨s, rfl, h⟩
  | cons c cs ih =>
    obtain ⟨t, ht, hb⟩ := ih (s := ⟨some c, s.index + 1, cs ++ b⟩) rfl
    exact ⟨t, ⟨cs ++ b, h, ht⟩, hb⟩

end Spot.Reads

theorem Spot.reads_append {s t : Spot} {a b : List Char} :
    s.Reads (a ++ b) t ↔ ∃ u, s.Reads a u ∧ u.Reads b t := by
  constructor
  · intro h
    induction a generalizing s with
    | nil => exact ⟨s, rfl, h⟩
    | cons c cs ih =>
      obtain ⟨rest, hr, h⟩ := h
      obtain ⟨u, hu, ht⟩ := ih h
      exact ⟨u, ⟨rest, hr, hu⟩, ht⟩
  · rintro ⟨u, hu, ht⟩
    exact hu.append ht

/-! ### Matches of a pattern -/

/-- `n` times the same. -/
def Iterates {α : Type} (r : α → α → Prop) : Nat → α → α → Prop
  | 0, s, t => t = s
  | n + 1, s, t => ∃ u, r s u ∧ Iterates r n u t

section
variable {α β : Type} {r : α → α → Prop} {m n : Nat} {s t : α}

theorem iterates_add :
    Iterates r (m + n) s t ↔ ∃ u, Iterates r m s u ∧ Iterates r n u t := by
  induction m generalizing s with
  | zero =>
    rw [Nat.zero_add]
    exact ⟨fun h => ⟨s, rfl, h⟩, fun ⟨u, hu, h⟩ => (show u = s from hu) ▸ h⟩
  | succ m ih =>
    rw [Nat.succ_add]
    constructor
    · rintro ⟨v, hv, h⟩
      obtain ⟨u, hu, h⟩ := ih.1 h
      exact ⟨u, ⟨v, hv, hu⟩, h⟩
    · rintro ⟨u, ⟨v, hv, hu⟩, h⟩
      exact ⟨v, hv, ih.2 ⟨u, hu, h⟩⟩

theorem Iterates.map {f : α → β} {q : β → β → Prop} (hn : Iterates r n s t)
    (h : ∀ {s t}, r s t → q (f s) (f t)) : Iterates q n (f s) (f t) := by
  induction n generalizing s with
  | zero => exact congrArg f hn
  | succ n ih =>
    obtain ⟨u, hu, hn⟩ := hn
    exact ⟨f u, h hu, ih hn⟩

/-- What stays the same each time is the same in the end. -/
theorem Iterates.keeps (hn : Iterates r n s t) (f : α → β) (h : ∀ {s t}, r s t → f t = f s) :
    f t = f s := by
  induction n generalizing s with
  | zero => exact congrArg f hn
  | succ n ih =>
    obtain ⟨u, hu, hn⟩ := hn
    exact (ih hn).trans (h hu)

end

namespace Pattern

/-- A match of the pattern may lie between the places. A largest number of repetitions counts as no
smaller than the least. -/
def Takes : Pattern → Spot → Spot → Prop
  | empty, s, t => t = s
  | text cs, s, t => s.Reads cs t
  | one set, s, t => ∃ c, s.Reads [c] t ∧ set.contains c = true
  | anchor a, s, t => a.holdsAt s = true ∧ t = s
  | seq p q, s, t => ∃ u, p.Takes s u ∧ q.Takes u t
  | alt p q, s, t => p.Takes s t ∨ q.Takes s t
  | times _ lo hi p, s, t => ∃ n, lo ≤ n ∧ (∀ h ∈ hi, n ≤ max lo h) ∧ Iterates p.Takes n s t
  | group _ p, s, t => p.Takes s t

/-- Whether it is plain that no match takes one of the characters. -/
def avoids (b : List Char) : Pattern → Bool
  | empty | anchor _ => true
  | text cs => cs.all (!b.contains ·)
  | one set => b.all (!set.contains ·)
  | seq p q | alt p q => p.avoids b && q.avoids b
  | times _ _ _ p | group _ p => p.avoids b

/-- Whether it is plain that every match takes one of the characters. -/
def needs (b : List Char) : Pattern → Bool
  | empty | anchor _ | one _ => false
  | text cs => cs.any b.contains
  | seq p q => p.needs b || q.needs b
  | alt p q => p.needs b && q.needs b
  | times _ lo _ p => 0 < lo && p.needs b
  | group _ p => p.needs b

variable {p : Pattern} {s t : Spot} {b : List Char}

/-- Parts that read characters one after the other read them together. -/
theorem iterates_reads {r : Spot → Spot → Prop} {P : Char → Prop}
    (h : ∀ {s t}, r s t → ∃ cs, s.Reads cs t ∧ ∀ c ∈ cs, P c) {n : Nat} (hn : Iterates r n s t) :
    ∃ cs, s.Reads cs t ∧ ∀ c ∈ cs, P c := by
  induction n generalizing s with
  | zero => exact ⟨[], hn, fun _ hc => absurd hc List.not_mem_nil⟩
  | succ n ih =>
    obtain ⟨u, hu, hn⟩ := hn
    obtain ⟨a, ha, hpa⟩ := h hu
    obtain ⟨b, hb, hpb⟩ := ih hn
    exact ⟨a ++ b, ha.append hb, fun c hc => (List.mem_append.1 hc).elim (hpa c) (hpb c)⟩

/-- Any number of characters of a set. -/
theorem takes_many (greedy : Bool) {set : CharSet} :
    (times greedy 0 none (one set)).Takes s t ↔
      ∃ cs, s.Reads cs t ∧ ∀ c ∈ cs, set.contains c = true := by
  constructor
  · rintro ⟨n, -, -, h⟩
    refine iterates_reads (fun {s t} h => ?_) h
    obtain ⟨c, hc, hset⟩ := h
    exact ⟨[c], hc, fun d hd => List.mem_singleton.1 hd ▸ hset⟩
  · rintro ⟨cs, h, hcs⟩
    refine ⟨cs.length, Nat.zero_le _, nofun, ?_⟩
    induction cs generalizing s with
    | nil => exact h
    | cons c cs ih =>
      obtain ⟨rest, hr, h⟩ := h
      refine ⟨_, ⟨c, ⟨rest, hr, rfl⟩, hcs c List.mem_cons_self⟩, ?_⟩
      exact ih h fun d hd => hcs d (List.mem_cons_of_mem c hd)

/-- A match takes what lies between its ends, and nothing of what the pattern avoids. -/
theorem Takes.avoids (h : p.Takes s t) (hp : p.avoids b = true) :
    ∃ cs, s.Reads cs t ∧ ∀ c ∈ cs, c ∉ b := by
  induction p generalizing s t with
  | empty => exact ⟨[], h, fun _ hc => absurd hc List.not_mem_nil⟩
  | anchor a => exact ⟨[], h.2, fun _ hc => absurd hc List.not_mem_nil⟩
  | text cs =>
    refine ⟨cs, h, fun c hc hb => ?_⟩
    have := List.all_eq_true.1 hp c hc
    simp [hb] at this
  | one set =>
    obtain ⟨c, hc, hset⟩ := h
    refine ⟨[c], hc, fun d hd hb => ?_⟩
    have := List.all_eq_true.1 hp d hb
    rw [List.mem_singleton.1 hd, hset] at this
    exact absurd this (by decide)
  | seq p q ihp ihq =>
    obtain ⟨hpa, hqa⟩ := Bool.and_eq_true_iff.1 hp
    obtain ⟨u, hu, ht⟩ := h
    obtain ⟨a, ha, hpa⟩ := ihp hu hpa
    obtain ⟨b, hb, hpb⟩ := ihq ht hqa
    exact ⟨a ++ b, ha.append hb, fun c hc => (List.mem_append.1 hc).elim (hpa c) (hpb c)⟩
  | alt p q ihp ihq =>
    obtain ⟨hpa, hqa⟩ := Bool.and_eq_true_iff.1 hp
    exact h.elim (fun h => ihp h hpa) fun h => ihq h hqa
  | times greedy lo hi p ih =>
    obtain ⟨n, -, -, h⟩ := h
    exact iterates_reads (fun h => ih h hp) h
  | group n p ih => exact ih h hp

theorem Takes.reads (h : p.Takes s t) : ∃ cs, s.Reads cs t := by
  have hnone : p.avoids [] = true := by
    clear h
    induction p with
    | empty | anchor a | one set => rfl
    | text cs => exact List.all_eq_true.2 fun _ _ => rfl
    | seq p q ihp ihq | alt p q ihp ihq => exact Bool.and_eq_true_iff.2 ⟨ihp, ihq⟩
    | times greedy lo hi p ih | group n p ih => exact ih
  obtain ⟨cs, hcs, -⟩ := h.avoids hnone
  exact ⟨cs, hcs⟩

/-- A match takes one of the characters that the pattern needs. -/
theorem Takes.needs (h : p.Takes s t) (hp : p.needs b = true) :
    ∃ cs, s.Reads cs t ∧ ∃ c ∈ cs, c ∈ b := by
  induction p generalizing s t with
  | empty | anchor a | one set => exact absurd hp nofun
  | text cs =>
    obtain ⟨c, hc, hb⟩ := List.any_eq_true.1 hp
    exact ⟨cs, h, c, hc, List.contains_iff_mem.1 hb⟩
  | seq p q ihp ihq =>
    obtain ⟨u, hu, ht⟩ := h
    obtain ⟨a, ha⟩ := hu.reads
    obtain ⟨e, he⟩ := ht.reads
    rcases Bool.or_eq_true_iff.1 hp with hp | hp
    · obtain ⟨a, ha, c, hc, hb⟩ := ihp hu hp
      exact ⟨a ++ e, ha.append he, c, List.mem_append_left _ hc, hb⟩
    · obtain ⟨e, he, c, hc, hb⟩ := ihq ht hp
      exact ⟨a ++ e, ha.append he, c, List.mem_append_right _ hc, hb⟩
  | alt p q ihp ihq =>
    obtain ⟨hpa, hqa⟩ := Bool.and_eq_true_iff.1 hp
    exact h.elim (fun h => ihp h hpa) fun h => ihq h hqa
  | times greedy lo hi p ih =>
    obtain ⟨hlo, hp⟩ := Bool.and_eq_true_iff.1 hp
    obtain ⟨n, hn, -, h⟩ := h
    cases n with
    | zero => exact absurd (of_decide_eq_true hlo) (by omega)
    | succ n =>
      obtain ⟨u, hu, h⟩ := h
      obtain ⟨a, ha, c, hc, hb⟩ := ih hu hp
      have htimes : (times greedy n (some n) p).Takes u t :=
        ⟨n, Nat.le_refl n, fun k _ => Nat.le_max_left n k, h⟩
      obtain ⟨e, he⟩ := htimes.reads
      exact ⟨a ++ e, ha.append he, c, List.mem_append_left _ hc, hb⟩
  | group n p ih => exact ih h hp

/-- A match takes no fewer characters than the pattern tells. -/
theorem Takes.least_le {n : Nat} (h : p.Takes s t) (hn : p.least? = some n) :
    s.index + n ≤ t.index := by
  induction p generalizing s t n with
  | empty | anchor a =>
    obtain rfl := Option.some.inj hn
    obtain ⟨cs, hcs⟩ := h.reads
    rw [hcs.index_eq]
    exact Nat.le_add_right s.index cs.length
  | text cs =>
    obtain rfl := Option.some.inj hn
    exact Nat.le_of_eq (Spot.Reads.index_eq h).symm
  | one set =>
    obtain ⟨c, hc, -⟩ := h
    rw [hc.index_eq]
    rw [least?] at hn
    split at hn
    · exact nomatch hn
    · obtain rfl := Option.some.inj hn
      exact Nat.le_refl _
  | seq p q ihp ihq =>
    obtain ⟨m, hm, hn⟩ := Option.bind_eq_some_iff.1 hn
    obtain ⟨k, hk, rfl⟩ := Option.map_eq_some_iff.1 hn
    obtain ⟨u, hu, ht⟩ := h
    have hsu := ihp hu hm
    have hut := ihq ht hk
    omega
  | alt p q ihp ihq =>
    obtain ⟨m, hm, hn⟩ := Option.bind_eq_some_iff.1 hn
    obtain ⟨k, hk, rfl⟩ := Option.map_eq_some_iff.1 hn
    rcases h with h | h
    · have := ihp h hm
      omega
    · have := ihq h hk
      omega
  | times greedy lo hi p ih =>
    obtain ⟨m, hm, rfl⟩ := Option.map_eq_some_iff.1 hn
    obtain ⟨k, hk, -, h⟩ := h
    have hall : ∀ k s, Iterates p.Takes k s t → s.index + k * m ≤ t.index := by
      intro k
      induction k with
      | zero =>
        rintro s rfl
        omega
      | succ k ihk =>
        rintro s ⟨u, hu, h⟩
        have hsu := ih hu hm
        have hut := ihk u h
        rw [Nat.succ_mul]
        omega
    exact Nat.le_trans (Nat.add_le_add_left (Nat.mul_le_mul_right m hk) _) (hall k s h)
  | group n p ih => exact ih h hn

/-- A match of a pattern that takes a character lies between different places. -/
theorem Takes.index_lt (h : p.Takes s t) (hp : p.takesSome = true) : s.index < t.index := by
  obtain ⟨n, hn, hpos⟩ := (Option.any_eq_true _ _).1 hp
  exact Nat.lt_of_lt_of_le (Nat.lt_add_of_pos_right (of_decide_eq_true hpos)) (h.least_le hn)

/-! ### First characters -/

/-- Whether it is plain that no match begins with one of the characters. Behind a part that may take
nothing it is up to the next one. -/
def avoidsFirst (b : List Char) : Pattern → Bool
  | empty | anchor _ => true
  | text cs => cs.head?.all (!b.contains ·)
  | one set => b.all (!set.contains ·)
  | seq p q => p.avoidsFirst b && (q.avoidsFirst b || p.takesSome)
  | alt p q => p.avoidsFirst b && q.avoidsFirst b
  | times _ _ _ p | group _ p => p.avoidsFirst b

theorem first_append {P : Char → Prop} {a e : List Char} (ha : ∀ c ∈ a.head?, P c)
    (he : a = [] → ∀ c ∈ e.head?, P c) : ∀ c ∈ (a ++ e).head?, P c := by
  cases a with
  | nil => exact he rfl
  | cons c a => exact ha

/-- A match begins with none of the characters that the pattern avoids in the first place. -/
theorem Takes.avoidsFirst (h : p.Takes s t) (hp : p.avoidsFirst b = true) :
    ∃ cs, s.Reads cs t ∧ ∀ c ∈ cs.head?, c ∉ b := by
  induction p generalizing s t with
  | empty => exact ⟨[], h, nofun⟩
  | anchor a => exact ⟨[], h.2, nofun⟩
  | text cs =>
    refine ⟨cs, h, fun c hc hb => ?_⟩
    rw [Pattern.avoidsFirst, hc, Option.all_some, List.contains_iff_mem.2 hb] at hp
    exact nomatch hp
  | one set =>
    obtain ⟨c, hc, hset⟩ := h
    refine ⟨[c], hc, fun d hd hb => ?_⟩
    obtain rfl := Option.some.inj hd
    have := List.all_eq_true.1 hp c hb
    rw [hset] at this
    exact nomatch this
  | seq p q ihp ihq =>
    obtain ⟨hpa, hqa⟩ := Bool.and_eq_true_iff.1 hp
    obtain ⟨u, hu, ht⟩ := h
    obtain ⟨a, ha, hfirst⟩ := ihp hu hpa
    rcases Bool.or_eq_true_iff.1 hqa with hqa | hsome
    · obtain ⟨e, he, hnext⟩ := ihq ht hqa
      exact ⟨a ++ e, ha.append he, first_append hfirst fun _ => hnext⟩
    · obtain ⟨e, he⟩ := ht.reads
      refine ⟨a ++ e, ha.append he, first_append hfirst fun hnil => ?_⟩
      have hlt := hu.index_lt hsome
      rw [ha.index_eq, hnil] at hlt
      exact absurd hlt (Nat.lt_irrefl _)
  | alt p q ihp ihq =>
    obtain ⟨hpa, hqa⟩ := Bool.and_eq_true_iff.1 hp
    exact h.elim (fun h => ihp h hpa) fun h => ihq h hqa
  | times greedy lo hi p ih =>
    obtain ⟨n, -, -, h⟩ := h
    induction n generalizing s with
    | zero => exact ⟨[], h, nofun⟩
    | succ n ihn =>
      obtain ⟨u, hu, h⟩ := h
      obtain ⟨a, ha, hfirst⟩ := ih hu hp
      obtain ⟨e, he, hnext⟩ := ihn h
      exact ⟨a ++ e, ha.append he, first_append hfirst fun _ => hnext⟩
  | group n p ih => exact ih h hp

/-! ### Conditions -/

theorem Takes.eq_of_takesNothing (h : p.Takes s t) (hp : p.takesNothing = true) : t = s := by
  induction p generalizing s t with
  | empty => exact h
  | anchor a => exact h.2
  | text cs =>
    obtain rfl : cs = [] := List.isEmpty_iff.1 hp
    exact h
  | one set => exact absurd hp nofun
  | seq p q ihp ihq =>
    obtain ⟨hpn, hqn⟩ := Bool.and_eq_true_iff.1 hp
    obtain ⟨u, hu, ht⟩ := h
    exact (ihq ht hqn).trans (ihp hu hpn)
  | alt p q ihp ihq =>
    obtain ⟨hpn, hqn⟩ := Bool.and_eq_true_iff.1 hp
    exact h.elim (fun h => ihp h hpn) fun h => ihq h hqn
  | times greedy lo hi p ih =>
    obtain ⟨-, hpn⟩ := Bool.and_eq_true_iff.1 hp
    obtain ⟨n, -, -, h⟩ := h
    induction n generalizing s with
    | zero => exact h
    | succ n ihn =>
      obtain ⟨u, hu, h⟩ := h
      exact (ihn h).trans (ih hu hpn)
  | group n p ih => exact ih h hp

/-- What a pattern asks for before it takes anything holds where its matches begin. -/
theorem Takes.holdsAt {a : Anchor} (h : p.Takes s t) (hp : p.beginsAt a = true) :
    a.holdsAt s = true := by
  induction p generalizing s t with
  | empty | text cs | one set => exact absurd hp nofun
  | anchor b =>
    obtain rfl : a = b := of_decide_eq_true hp
    exact h.1
  | seq p q ihp ihq =>
    obtain ⟨u, hu, ht⟩ := h
    rcases Bool.or_eq_true_iff.1 hp with hp | hp
    · exact ihp hu hp
    · obtain ⟨hpn, hq⟩ := Bool.and_eq_true_iff.1 hp
      exact hu.eq_of_takesNothing hpn ▸ ihq ht hq
  | alt p q ihp ihq =>
    obtain ⟨hpb, hqb⟩ := Bool.and_eq_true_iff.1 hp
    exact h.elim (fun h => ihp h hpb) fun h => ihq h hqb
  | times greedy lo hi p ih =>
    obtain ⟨hlo, hp⟩ := Bool.and_eq_true_iff.1 hp
    obtain ⟨n, hn, -, h⟩ := h
    cases n with
    | zero => exact absurd (of_decide_eq_true hlo) (by omega)
    | succ n =>
      obtain ⟨u, hu, -⟩ := h
      exact ih hu hp
  | group n p ih => exact ih h hp

end Pattern

end CodeEditing
