import PatternAutomata.Proofs.ParsingStep

/-!
# Open brackets

About `enter`, `leave` and `class` (in `parser`): what is open between two tokens.

Which brackets are open at some place of a pattern can be read off the tokens before it, whatever
else they are: in a class every token up to the bare `]` is a member, so parentheses and brackets
only count outside classes. A parser knows the same from its levels and its phase.

Results:
* `openBrackets_concat`, `openBrackets_append_inside`: one token more, and tokens inside a class;
* **`Parsing.openBrackets_of_run`**: what a parser keeps open is what is open behind the tokens that
  it has taken;
* `openBrackets_among`: an open bracket is one of the tokens.
-/

namespace PatternAutomata

/-- The offsets of the brackets that are open: the parentheses of groups, the innermost first, and
the bracket of a class. -/
structure OpenBrackets where
  groups : List Nat
  charClass : Option Nat
deriving DecidableEq

namespace OpenBrackets

/-- Nothing is open. -/
def empty : OpenBrackets := ⟨[], none⟩

/-- What is open behind a token that stands in no class. -/
def outside (groups : List Nat) (t : Token) : OpenBrackets :=
  match t.kind with
  | .leftBracket => ⟨groups, some t.position⟩
  | .leftParen => ⟨t.position :: groups, none⟩
  | .rightParen => ⟨groups.tail, none⟩
  | _ => ⟨groups, none⟩

/-- What is open behind one more token. -/
def next (b : OpenBrackets) (t : Token) : OpenBrackets :=
  match b.charClass with
  | none => outside b.groups t
  | some _ => if t.isBare ']' then ⟨b.groups, none⟩ else b

end OpenBrackets

/-- What is open behind some tokens. -/
def openBrackets (ts : List Token) : OpenBrackets := ts.foldl .next .empty

theorem openBrackets_concat (ts : List Token) (t : Token) :
    openBrackets (ts ++ [t]) = (openBrackets ts).next t := by
  rw [openBrackets, List.foldl_append]
  rfl

/-- The parentheses in a class are members of it. -/
example : openBrackets [⟨.leftParen, '(', 0⟩, ⟨.leftBracket, '[', 1⟩, ⟨.character, 'a', 2⟩,
    ⟨.rightParen, ')', 3⟩, ⟨.leftParen, '(', 4⟩] = ⟨[0], some 1⟩ := by
  decide

variable {ts us : List Token} {t : Token} {k : Nat}

/-- A class stays open up to the first bare `]`. -/
theorem openBrackets_append_inside (h : (openBrackets ts).charClass = some k)
    (hus : ∀ t ∈ us, t.isBare ']' = false) : openBrackets (ts ++ us) = openBrackets ts := by
  induction us generalizing ts with
  | nil => rw [List.append_nil]
  | cons t us ih =>
    obtain ⟨ht, hus⟩ := List.forall_mem_cons.mp hus
    have hinside : openBrackets (ts ++ [t]) = openBrackets ts := by
      rw [openBrackets_concat, OpenBrackets.next, h]
      simp only [ht, Bool.false_eq_true, if_false]
    rw [List.append_cons, ih (hinside ▸ h) hus, hinside]

/-- Behind an opening bracket some class is open. -/
theorem exists_charClass (ts : List Token) (hk : t.kind = .leftBracket) :
    ∃ k, (openBrackets (ts ++ [t])).charClass = some k := by
  have hbare : t.isBare ']' = false := by simp [Token.isBare, hk]
  rw [openBrackets_concat, OpenBrackets.next]
  split
  · rw [OpenBrackets.outside, hk]
    exact ⟨_, rfl⟩
  · rename_i k hopen
    rw [hbare]
    exact ⟨k, hopen⟩

/-! ## What a parser keeps open -/

/-- The group that a level is and those around it; the outermost level is that of the pattern. -/
def Level.openings (l : Level) : List Level → List Nat
  | [] => []
  | outer :: rest => l.opening :: outer.openings rest

/-- The class whose tokens are being read. -/
def Phase.openClass : Phase → Option Nat
  | .classStart position => some position
  | .classBody position _ _ => some position
  | _ => none

namespace Parsing

/-- The brackets that are open. -/
def brackets (s : Parsing) : OpenBrackets := ⟨s.level.openings s.outer, s.phase.openClass⟩

variable {limit : Nat} {s s' : Parsing}

theorem openings_push (l : Level) (item : Tree) (outer : List Level) :
    (l.push item).openings outer = l.openings outer := by
  cases outer <;> rfl

theorem openings_split (l : Level) (position : Nat) (outer : List Level) :
    (l.split position).openings outer = l.openings outer := by
  cases outer <;> rfl

theorem length_openings (l : Level) (outer : List Level) :
    (l.openings outer).length = outer.length := by
  induction outer generalizing l with
  | nil => rfl
  | cons level rest ih => rw [Level.openings, List.length_cons, List.length_cons, ih]

/-- As many groups are open as there are levels around the innermost one. -/
theorem length_groups (s : Parsing) : s.brackets.groups.length = s.depth :=
  length_openings s.level s.outer

theorem groups_eq_nil_iff : s.brackets.groups = [] ↔ s.outer = [] := by
  rw [← List.length_eq_zero_iff, length_groups, depth, List.length_eq_zero_iff]

theorem brackets_eq_empty_iff : s.brackets = .empty ↔ s.outer = [] ∧ s.phase.openClass = none := by
  rw [← groups_eq_nil_iff, OpenBrackets.empty, brackets, OpenBrackets.mk.injEq]

/-- The innermost open group is that of the level. -/
theorem head?_groups (h : s.outer ≠ []) : s.brackets.groups.head? = some s.level.opening := by
  unfold brackets
  cases ho : s.outer with
  | nil => exact absurd ho h
  | cons level rest => rfl

/-- Outside classes, a token counts as a bracket. -/
theorem next_brackets (h : s.phase.openClass = none) (t : Token) :
    s.brackets.next t = .outside (s.level.openings s.outer) t := by
  rw [OpenBrackets.next, brackets, h]

theorem Ready.openClass_eq_none (h : s.Ready) : s.phase.openClass = none := by
  rcases h with hp | hp
  all_goals
    rw [hp]
    rfl

/-- **Step**: taking a token changes what is open as the token says. -/
theorem brackets_of_takes (h : Takes limit t s s') : s'.brackets = s.brackets.next t := by
  induction h with
  | character hr hk | escape hr hk | openClass hr hk | openGroup hr hk _ =>
    rw [next_brackets hr.openClass_eq_none, OpenBrackets.outside, hk]
    rfl
  | @bar s hp hk =>
    rw [next_brackets (s := s) (by rw [hp]; rfl), OpenBrackets.outside, hk,
      ← openings_split s.level t.position]
    rfl
  | @closeGroup s _ _ hp hk ho =>
    rw [next_brackets (s := s) (by rw [hp]; rfl), OpenBrackets.outside, hk, ho]
    rfl
  | @quantify s operand hp hk =>
    rw [next_brackets (s := s) (by rw [hp]; rfl), OpenBrackets.outside, hk,
      ← openings_push s.level (.quantified (some t.value) operand)]
    rfl
  | @pass s _ operand hp _ _ ih =>
    rw [ih, next_brackets (s := s) (by rw [hp]; rfl),
      ← openings_push s.level (.quantified none operand)]
    rfl
  | negate hp hb =>
    have hb' : t.isBare ']' = false := Token.isBare_eq_false hb (by decide)
    simp [OpenBrackets.next, brackets, hp, hb', Phase.openClass]
  | firstMember hp _ hb _ => simp [OpenBrackets.next, brackets, hp, hb, Phase.openClass]
  | member hp hb => simp [OpenBrackets.next, brackets, hp, hb, Phase.openClass]
  | closeClass hp hb => simp [OpenBrackets.next, brackets, hp, hb, Phase.openClass]
  | @settle s _ _ _ _ _ hp _ _ ih =>
    rw [ih, next_brackets (s := s) (by rw [hp]; rfl)]
    rfl

/-- **What a parser keeps open** is what is open behind the tokens that it has taken. -/
theorem openBrackets_of_run (h : start.run limit ts = .ok s) : openBrackets ts = s.brackets :=
  @run_induction_read limit start s (fun ts s => openBrackets ts = s.brackets)
    (fun {us t s s'} ht hs => by rw [openBrackets_concat, hs, brackets_of_takes ht])
    [] ts rfl h

end Parsing

/-! ## Open brackets are tokens -/

/-- The open brackets are among the given tokens. -/
structure OpenBrackets.Among (ts : List Token) (b : OpenBrackets) : Prop where
  groups : ∀ k ∈ b.groups, ∃ t ∈ ts, t.kind = .leftParen ∧ t.position = k
  charClass : ∀ k ∈ b.charClass, ∃ t ∈ ts, t.kind = .leftBracket ∧ t.position = k

theorem OpenBrackets.Among.next {b : OpenBrackets} (h : b.Among ts) (ht : t ∈ ts) :
    (b.next t).Among ts := by
  unfold OpenBrackets.next
  split
  · unfold OpenBrackets.outside
    split
    · rename_i hk
      exact ⟨h.groups, fun k hk' => ⟨t, ht, hk, Option.mem_some.mp hk'⟩⟩
    · rename_i hk
      exact ⟨List.forall_mem_cons.mpr ⟨⟨t, ht, hk, rfl⟩, h.groups⟩, fun _ h => by cases h⟩
    · exact ⟨fun k hk => h.groups k (List.mem_of_mem_tail hk), fun _ h => by cases h⟩
    · exact ⟨h.groups, fun _ h => by cases h⟩
  · split
    · exact ⟨h.groups, fun _ h => by cases h⟩
    · exact h

/-- The open brackets behind some tokens are among them. -/
theorem openBrackets_among (ts : List Token) : (openBrackets ts).Among ts :=
  List.foldlRecOn (motive := OpenBrackets.Among ts) ts OpenBrackets.next
    ⟨fun _ h => absurd h List.not_mem_nil, fun _ h => by cases h⟩
    fun _ hb _ ht => hb.next ht

end PatternAutomata
