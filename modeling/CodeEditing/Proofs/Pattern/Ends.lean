import CodeEditing.Proofs.Pattern.Attempts

/-! The places where matches of a pattern end, the preferred one first.

`Pattern.ends` lists them by the parts of the pattern: the ends of a sequence are those of its
second part behind each end of its first, a choice has those of its first part in front, and a
greedy repetition has those of going on in front of stopping. Trying the steps of a pattern is
trying what comes next at each of its ends in turn (`Pattern.code_prefers`), as long as what is
repeated without bound takes a character each time (`Pattern.steady`). Hence a search finds a match
up to the first of the ends (`Pattern.search_ends`). -/
namespace CodeEditing

namespace Pattern

/-! ### Ends -/

/-- Behind a text. -/
def pastText : List Char → Spot → List Spot
  | [], s => [s]
  | c :: cs, s => if s.nextIn (.only c) then pastText cs s.beyond else []

/-- Behind `n` times the same. -/
def exactly (f : Spot → List Spot) : Nat → Spot → List Spot
  | 0, s => [s]
  | n + 1, s => (f s).flatMap (exactly f n)

/-- Behind up to `n` times the same. -/
def upTo (greedy : Bool) (f : Spot → List Spot) : Nat → Spot → List Spot
  | 0, s => [s]
  | n + 1, s =>
    if greedy then (f s).flatMap (upTo greedy f n) ++ [s]
    else s :: (f s).flatMap (upTo greedy f n)

/-- The ends of the matches that begin at a place. What is repeated without bound is repeated as
often as there are characters left. -/
def ends : Pattern → Spot → List Spot
  | empty, s => [s]
  | text cs, s => pastText cs s
  | one set, s => if s.nextIn set then [s.beyond] else []
  | anchor a, s => if a.holdsAt s then [s] else []
  | seq p q, s => (p.ends s).flatMap q.ends
  | alt p q, s => p.ends s ++ q.ends s
  | times greedy lo hi p, s =>
    (exactly p.ends lo s).flatMap fun u =>
      upTo greedy p.ends (hi.elim u.rest.length (· - lo)) u
  | group _ p, s => p.ends s

/-- Whether it is plain that what is repeated without bound takes a character each time. -/
def steady : Pattern → Bool
  | seq p q | alt p q => p.steady && q.steady
  | times _ _ hi p => p.steady && (hi.isSome || p.takesSome)
  | group _ p => p.steady
  | _ => true

/-! ### Ends are ends of matches -/

section
variable {f : Spot → List Spot} {r : Spot → Spot → Prop} {s e : Spot}

theorem reads_of_nextIn {c : Char} (h : s.nextIn (.only c) = true) : s.Reads [c] s.beyond := by
  unfold Spot.nextIn at h
  unfold Spot.beyond
  cases hrest : s.rest with
  | nil =>
    rw [hrest] at h
    exact nomatch h
  | cons d cs =>
    rw [hrest] at h
    obtain rfl : d = c := by simpa using h
    exact ⟨cs, hrest, rfl⟩

theorem reads_of_mem_pastText {cs : List Char} (h : e ∈ pastText cs s) : s.Reads cs e := by
  induction cs generalizing s with
  | nil => exact List.mem_singleton.1 h
  | cons c cs ih =>
    rw [pastText] at h
    split at h
    · next hc => exact (reads_of_nextIn hc).append (ih h)
    · exact absurd h List.not_mem_nil

theorem iterates_of_mem_exactly (hf : ∀ {s e}, e ∈ f s → r s e) {n : Nat}
    (h : e ∈ exactly f n s) : Iterates r n s e := by
  induction n generalizing s with
  | zero => exact List.mem_singleton.1 h
  | succ n ih =>
    obtain ⟨u, hu, he⟩ := List.mem_flatMap.1 h
    exact ⟨u, hf hu, ih he⟩

theorem iterates_of_mem_upTo (hf : ∀ {s e}, e ∈ f s → r s e) {greedy : Bool} {n : Nat}
    (h : e ∈ upTo greedy f n s) : ∃ j, j ≤ n ∧ Iterates r j s e := by
  induction n generalizing s with
  | zero => exact ⟨0, Nat.le_refl 0, List.mem_singleton.1 h⟩
  | succ n ih =>
    have hcases : e = s ∨ e ∈ (f s).flatMap (upTo greedy f n) := by
      rw [upTo] at h
      split at h
      · exact (List.mem_append.1 h).symm.imp_left List.mem_singleton.1
      · exact List.mem_cons.1 h
    rcases hcases with rfl | hmore
    · exact ⟨0, Nat.zero_le _, rfl⟩
    · obtain ⟨u, hu, he⟩ := List.mem_flatMap.1 hmore
      obtain ⟨j, hj, hi⟩ := ih he
      exact ⟨j + 1, Nat.succ_le_succ hj, u, hf hu, hi⟩

end

theorem takes_of_mem_ends {p : Pattern} {s e : Spot} (h : e ∈ p.ends s) : p.Takes s e := by
  induction p generalizing s e with
  | empty => exact List.mem_singleton.1 h
  | text cs => exact reads_of_mem_pastText h
  | one set =>
    obtain ⟨hin, he⟩ := List.mem_ite_nil_right.1 h
    obtain rfl := List.mem_singleton.1 he
    unfold Spot.nextIn at hin
    unfold Spot.beyond
    cases hrest : s.rest with
    | nil =>
      rw [hrest] at hin
      exact nomatch hin
    | cons c cs =>
      rw [hrest] at hin
      exact ⟨c, ⟨cs, hrest, rfl⟩, hin⟩
  | anchor a =>
    obtain ⟨ha, he⟩ := List.mem_ite_nil_right.1 h
    exact ⟨ha, List.mem_singleton.1 he⟩
  | seq p q ihp ihq =>
    obtain ⟨u, hu, he⟩ := List.mem_flatMap.1 h
    exact ⟨u, ihp hu, ihq he⟩
  | alt p q ihp ihq => exact (List.mem_append.1 h).imp ihp ihq
  | group n p ih => exact ih h
  | times greedy lo hi p ih =>
    obtain ⟨u, hu, he⟩ := List.mem_flatMap.1 h
    obtain ⟨j, hj, hi'⟩ := iterates_of_mem_upTo (r := p.Takes) ih he
    refine ⟨lo + j, Nat.le_add_right .., fun n hn => ?_,
      iterates_add.2 ⟨u, iterates_of_mem_exactly (r := p.Takes) ih hu, hi'⟩⟩
    rw [Option.mem_def.1 hn, Option.elim_some] at hj
    omega

/-- What takes a character leaves less to read. -/
theorem rest_lt_of_mem_ends {p : Pattern} {s e : Spot} (hp : p.takesSome = true)
    (h : e ∈ p.ends s) : e.rest.length < s.rest.length := by
  have htakes := takes_of_mem_ends h
  obtain ⟨cs, hcs⟩ := htakes.reads
  have hlt := htakes.index_lt hp
  have hindex := hcs.index_eq
  rw [hcs.rest_eq, List.length_append]
  omega

/-! ### Steps are tried in the order of ends -/

/-- What trying steps finds. -/
def Finds (steps : Array Step) (todo : List (Nat × Spot)) (r : Option Spot) : Prop :=
  ∃ n, Tries steps n todo r

variable {steps : Array Step} {todo : List (Nat × Spot)} {r : Option Spot} {place next : Nat}
  {s : Spot}

theorem Finds.go {x : Step} (h : steps[place]? = some x) (hx : x.goesOn = true)
    (hmore : Finds steps (x.ways s ++ todo) r) : Finds steps ((place, s) :: todo) r := by
  obtain ⟨n, hn⟩ := hmore
  exact ⟨n + 1, .go h hx hn⟩

theorem Finds.choose {greedy : Bool} {a b : Nat} (h : steps[place]? = some (.choose greedy a b))
    (hmore : Finds steps
      ((if greedy then [(a, s), (b, s)] else [(b, s), (a, s)]) ++ todo) r) :
    Finds steps ((place, s) :: todo) r := by
  cases greedy with
  | true => exact .go h rfl hmore
  | false => exact .go h rfl hmore

/-- What follows may be tried in another way. -/
theorem Finds.tail {front a b : List (Nat × Spot)} (h : Finds steps (front ++ a) r)
    (hb : Finds steps a r → Finds steps b r) : Finds steps (front ++ b) r := by
  obtain ⟨n, hn⟩ := h
  rcases hn.split with ⟨e, rfl, he⟩ | ⟨i, j, -, hi, hj⟩
  · exact ⟨n, he.append_some⟩
  · obtain ⟨m, hm⟩ := hb ⟨j, hj⟩
    exact ⟨i + m, hi.append_none hm⟩

/-- What is tried at each of some places is tried at all they lead to. -/
theorem Finds.flatMap {es : List Spot} {f : Spot → List Spot}
    (h : ∀ e ∈ es, ∀ {todo}, Finds steps ((f e).map (next, ·) ++ todo) r →
      Finds steps ((place, e) :: todo) r)
    (hall : Finds steps ((es.flatMap f).map (next, ·) ++ todo) r) :
    Finds steps (es.map (place, ·) ++ todo) r := by
  induction es generalizing todo with
  | nil => exact hall
  | cons e es ih =>
    rw [List.flatMap_cons, List.map_append, List.append_assoc] at hall
    exact h e List.mem_cons_self
      (hall.tail (ih fun d hd => h d (List.mem_cons_of_mem e hd)))

/-- The steps of a body are tried by trying what comes next at its ends. -/
def Prefers (steps : Array Step) (body : Nat → Nat → List Step) (f : Spot → List Spot) : Prop :=
  ∀ {base next : Nat} {s : Spot} {todo : List (Nat × Spot)} {r : Option Spot},
    Placed steps base (body base next) → Finds steps ((f s).map (next, ·) ++ todo) r →
      Finds steps ((base, s) :: todo) r

section
variable {body : Nat → Nat → List Step} {f : Spot → List Spot} {size k base : Nat} {greedy : Bool}

theorem exactly_succ (f : Spot → List Spot) (n : Nat) (s : Spot) :
    exactly f (n + 1) s = (exactly f n s).flatMap f := by
  induction n generalizing s with
  | zero => simp [exactly]
  | succ n ih =>
    rw [exactly, exactly, List.flatMap_assoc]
    exact congrArg (List.flatMap · (f s)) (funext ih)

theorem copies_prefers (hlen : ∀ b e, (body b e).length = size) (h : Prefers steps body f)
    (hp : Placed steps base (copies body size k base next))
    (hfind : Finds steps ((exactly f k s).map (next, ·) ++ todo) r) :
    Finds steps ((if k = 0 then next else base, s) :: todo) r := by
  induction k generalizing base s todo with
  | zero => exact hfind
  | succ k ih =>
    rw [copies_succ, placed_append, hlen] at hp
    exact h hp.1 (.flatMap (fun e _ => ih hp.2) hfind)

theorem options_prefers (hlen : ∀ b e, (body b e).length = size) (h : Prefers steps body f)
    (hp : Placed steps base (options greedy body size k base next))
    (hfind : Finds steps ((upTo greedy f k s).map (next, ·) ++ todo) r) :
    Finds steps ((if k = 0 then next else base, s) :: todo) r := by
  induction k generalizing base s todo with
  | zero => exact hfind
  | succ k ih =>
    rw [options_succ, List.cons_append, Placed, placed_append, hlen] at hp
    obtain ⟨hstep, hbody, hmore⟩ := hp
    rw [Nat.add_assoc, Nat.add_comm 1] at hmore
    have hgo : ∀ {todo}, Finds steps (((f s).flatMap (upTo greedy f k)).map (next, ·) ++ todo) r →
        Finds steps ((base + 1, s) :: todo) r :=
      fun hmany => h hbody (.flatMap (fun e _ => ih hmore) hmany)
    refine .choose hstep ?_
    cases greedy with
    | true =>
      simp only [upTo, if_true, List.map_append, List.append_assoc] at hfind
      exact hgo hfind
    | false => exact @Finds.tail steps r [(next, s)] _ _ hfind hgo

/-- Any number of matches of what takes a character. -/
theorem loop_prefers (h : Prefers steps body f) {c b : Nat}
    (hstep : steps[c]? = some (.choose greedy b next)) (hbody : Placed steps b (body b c))
    (hless : ∀ {s e}, e ∈ f s → e.rest.length < s.rest.length) (hk : s.rest.length ≤ k)
    (hfind : Finds steps ((upTo greedy f k s).map (next, ·) ++ todo) r) :
    Finds steps ((c, s) :: todo) r := by
  induction k generalizing s todo with
  | zero =>
    have hnone : f s = [] := by
      refine List.eq_nil_iff_forall_not_mem.2 fun e he => ?_
      have := hless he
      omega
    have hgo : ∀ {todo}, Finds steps todo r → Finds steps ((b, s) :: todo) r := by
      intro todo hmany
      exact h hbody (by rwa [hnone])
    refine .choose hstep ?_
    cases greedy with
    | true => exact hgo hfind
    | false => exact @Finds.tail steps r [(next, s)] _ _ hfind hgo
  | succ k ih =>
    have hgo : ∀ {todo}, Finds steps (((f s).flatMap (upTo greedy f k)).map (next, ·) ++ todo) r →
        Finds steps ((b, s) :: todo) r := by
      refine fun hmany => h hbody (.flatMap (fun e he => ih ?_) hmany)
      have := hless he
      omega
    refine .choose hstep ?_
    cases greedy with
    | true =>
      simp only [upTo, if_true, List.map_append, List.append_assoc] at hfind
      exact hgo hfind
    | false => exact @Finds.tail steps r [(next, s)] _ _ hfind hgo

end

theorem textCode_prefers {cs : List Char} {base : Nat}
    (hp : Placed steps base (textCode base next cs))
    (hfind : Finds steps ((pastText cs s).map (next, ·) ++ todo) r) :
    Finds steps ((base, s) :: todo) r := by
  induction cs generalizing base s with
  | nil => exact .go hp.1 rfl hfind
  | cons c cs ih =>
    rw [pastText] at hfind
    cases cs with
    | nil =>
      refine .go hp.1 rfl ?_
      rw [Step.ways]
      split
      · next hin =>
        rw [if_pos hin] at hfind
        exact hfind
      · next hin =>
        rw [if_neg hin] at hfind
        exact hfind
    | cons d ds =>
      refine .go hp.1 rfl ?_
      rw [Step.ways]
      split
      · next hin =>
        rw [if_pos hin] at hfind
        exact ih hp.2 hfind
      · next hin =>
        rw [if_neg hin] at hfind
        exact hfind

theorem times_prefers {p : Pattern} (greedy : Bool) (lo : Nat) (hi : Option Nat)
    (hsteady : hi.isSome = true ∨ p.takesSome = true) (ih : Prefers steps p.code p.ends) :
    Prefers steps (times greedy lo hi p).code (times greedy lo hi p).ends := by
  have hlen := length_code p
  intro base next s todo r hp hfind
  rw [ends] at hfind
  match lo, hi with
  | 0, none =>
    have hsome : p.takesSome = true := hsteady.resolve_left Bool.false_ne_true
    rw [code, if_pos hsome] at hp
    rw [exactly, List.flatMap_singleton] at hfind
    exact loop_prefers ih hp.1 hp.2 (rest_lt_of_mem_ends hsome) (Nat.le_refl _) hfind
  | lo + 1, none =>
    have hsome : p.takesSome = true := hsteady.resolve_left Bool.false_ne_true
    rw [code] at hp
    simp only [placed_append, List.length_append, length_copies hlen, length_code] at hp
    obtain ⟨⟨hcopies, hbody⟩, hback, -⟩ := hp
    rw [← Nat.add_assoc] at hback
    rw [exactly_succ, List.flatMap_assoc] at hfind
    rw [← entry_eq lo base p.steps]
    refine copies_prefers hlen ih hcopies (.flatMap (fun u _ {todo} hu => ?_) hfind)
    refine ih hbody (.flatMap (fun e _ {todo} he => ?_) hu)
    exact loop_prefers ih hback hbody (rest_lt_of_mem_ends hsome) (Nat.le_refl _) he
  | lo, some hi =>
    rw [code] at hp
    by_cases h0 : lo = 0 ∧ hi = 0
    · obtain ⟨rfl, rfl⟩ := h0
      exact .go hp.1 rfl (by simpa [exactly, upTo, Step.ways] using hfind)
    · rw [if_neg (by simpa using h0)] at hp
      simp only [placed_append, length_copies hlen] at hp
      rw [← entry_options_eq h0 base p.steps next]
      refine copies_prefers hlen ih hp.1 (.flatMap (fun u _ {todo} hu => ?_) hfind)
      have := options_prefers hlen ih hp.2 hu
      simpa only [← Nat.sub_eq_zero_iff_le] using this

/-- **Trying the steps of a pattern** is trying what comes next at its ends, the preferred one
first. -/
theorem code_prefers (steps : Array Step) {p : Pattern} (hp : p.steady = true) :
    Prefers steps p.code p.ends := by
  induction p with
  | empty => exact fun hp hfind => .go hp.1 rfl hfind
  | text cs => exact textCode_prefers
  | one set =>
    intro base next s todo r hp hfind
    refine .go hp.1 rfl ?_
    rw [Step.ways]
    rw [ends] at hfind
    split
    · next hin =>
      rw [if_pos hin] at hfind
      exact hfind
    · next hin =>
      rw [if_neg hin] at hfind
      exact hfind
  | anchor a =>
    intro base next s todo r hp hfind
    refine .go hp.1 rfl ?_
    rw [Step.ways]
    rw [ends] at hfind
    split
    · next ha =>
      rw [if_pos ha] at hfind
      exact hfind
    · next ha =>
      rw [if_neg ha] at hfind
      exact hfind
  | seq p q ihp ihq =>
    obtain ⟨hps, hqs⟩ := Bool.and_eq_true_iff.1 hp
    intro base next s todo r hp hfind
    rw [code, placed_append, length_code] at hp
    exact ihp hps hp.1 (.flatMap (fun u _ => ihq hqs hp.2) hfind)
  | alt p q ihp ihq =>
    obtain ⟨hps, hqs⟩ := Bool.and_eq_true_iff.1 hp
    intro base next s todo r hp hfind
    rw [code, List.cons_append, Placed, placed_append, length_code] at hp
    obtain ⟨hstep, hpp, hpq⟩ := hp
    rw [ends, List.map_append, List.append_assoc] at hfind
    exact .go hstep rfl (ihp hps hpp (hfind.tail (ihq hqs hpq)))
  | group number p ih =>
    intro base next s todo r hpl hfind
    rw [code, List.cons_append, Placed, placed_append, length_code] at hpl
    obtain ⟨hopen, hbody, hclose, -⟩ := hpl
    have hclosing : ∀ e ∈ p.ends s, ∀ {todo}, Finds steps ([e].map (next, ·) ++ todo) r →
        Finds steps ((base + 1 + p.steps, e) :: todo) r := fun _ _ _ he => .go hclose rfl he
    exact .go hopen rfl (ih hp hbody (.flatMap hclosing (by rwa [List.flatMap_singleton'])))
  | times greedy lo hi p ih =>
    obtain ⟨hps, hi'⟩ := Bool.and_eq_true_iff.1 hp
    exact times_prefers greedy lo hi (Bool.or_eq_true_iff.1 hi') (ih hps)

/-! ### Searches -/

/-- What a search tries. -/
theorem finds_start {p : Pattern} (hp : p.steady = true) (text : List Char) :
    Finds p.matcher.steps [(0, .start text)] (p.ends (.start text)).head? := by
  obtain ⟨hcode, hdone⟩ := p.placed_matcher
  have hfind : Finds p.matcher.steps ((p.ends (.start text)).map (p.steps, ·) ++ [])
      (p.ends (.start text)).head? := by
    cases p.ends (.start text) with
    | nil => exact ⟨0, .nothing⟩
    | cons e es => exact ⟨0, .done hdone⟩
  exact code_prefers _ hp hcode hfind

/-- **A search finds the preferred match.** Where the pattern is held at the start, a search finds a
match up to the first of its ends, and nothing when there is none. -/
theorem search_ends {p : Pattern} (hp : p.steady = true) (hheld : p.beginsAt .textStart = true)
    (text : List Char) : (p.matcher.search text).map (·.stop) =
      (p.ends (.start text)).head?.map (·.index) := by
  obtain ⟨n, hn⟩ := finds_start hp text
  cases he : (p.ends (.start text)).head? with
  | none =>
    rw [he] at hn
    rw [Matcher.search_spent hheld hn]
    rfl
  | some e =>
    rw [he] at hn
    obtain ⟨m, hm, hstop⟩ := Matcher.search_tries hn
    rw [hm, Option.map_some, Option.map_some, hstop]

end Pattern

end CodeEditing
