import Mathlib.Data.List.Basic

/-!
# Windows command lines

How a Windows program's startup code splits its command line, a list of UTF-16 units, into `argv`:

* the program name ends at the first blank outside double quotes; a double quote toggles and
  nothing is escaped;
* arguments are separated by runs of blanks; a blank between double quotes belongs to the argument;
* `2n` backslashes and a double quote are `n` backslashes and a quote that opens or closes, `2n + 1`
  backslashes and a double quote are `n` backslashes and a literal quote, and backslashes before
  anything else stand for themselves;
* a double quote right behind one that closes is a literal quote, and the quoted part goes on.

The size of what comes out, one unit for each separator included, is at most the size of what went
in (`size_split_le`), and smaller as soon as there is a quote (`size_split_lt`). So a command line
that merely joins its words with blanks is read back only if none of them needs quoting
(`split_prefix_join_iff`).
-/

namespace Argv

abbrev Wide := List UInt16

def space : UInt16 := 0x20
def tab : UInt16 := 0x09
def quote : UInt16 := 0x22
def backslash : UInt16 := 0x5c

def isBlank (c : UInt16) : Bool := c == space || c == tab

/-- Where the double quotes stand: outside of a quoted part, inside of one, or right behind a quote
that has closed one. -/
inductive Quoting where
  | outside
  | inside
  | closed
  deriving DecidableEq

/-- The position once something other than a quote has been read. -/
def Quoting.settle : Quoting → Quoting
  | .inside => .inside
  | _ => .outside

/-- The reader: between two arguments, or in one, with what it has so far and the backslashes
whose meaning is still open. -/
inductive Reader where
  | gap
  | arg (acc : Wide) (slashes : Nat) (q : Quoting)

/-- The reader behind a double quote. -/
def Reader.quoted (acc : Wide) (slashes : Nat) (q : Quoting) : Reader :=
  if slashes % 2 = 1 then
    .arg (acc ++ List.replicate (slashes / 2) backslash ++ [quote]) 0 q.settle
  else
    match q with
    | .outside => .arg (acc ++ List.replicate (slashes / 2) backslash) 0 .inside
    | .inside => .arg (acc ++ List.replicate (slashes / 2) backslash) 0 .closed
    | .closed => .arg (acc ++ List.replicate (slashes / 2) backslash ++ [quote]) 0 .inside

/-- The reader behind a unit that belongs to an argument. -/
def Reader.unit (acc : Wide) (slashes : Nat) (q : Quoting) (c : UInt16) : Reader :=
  if c = quote then .quoted acc slashes q
  else if c = backslash then .arg acc (slashes + 1) q.settle
  else .arg (acc ++ List.replicate slashes backslash ++ [c]) 0 q.settle

/-- The arguments. -/
def args : Reader → Wide → List Wide
  | .gap, [] => []
  | .arg acc slashes _, [] => [acc ++ List.replicate slashes backslash]
  | .gap, c :: cs => if isBlank c then args .gap cs else args (.unit [] 0 .outside c) cs
  | .arg acc slashes q, c :: cs =>
    if isBlank c ∧ q ≠ .inside then
      (acc ++ List.replicate slashes backslash) :: args .gap cs
    else args (.unit acc slashes q c) cs

/-- The program name and the arguments. -/
def program : Bool → Wide → Wide → List Wide
  | _, name, [] => [name]
  | quoted, name, c :: cs =>
    if c = quote then program (!quoted) name cs
    else if isBlank c ∧ quoted = false then name :: args .gap cs
    else program quoted (name ++ [c]) cs

/-- `argv` of a command line. -/
def split (line : Wide) : List Wide := program false [] line

/-- The words with one space between any two. -/
def join : List Wide → Wide
  | [] => []
  | [w] => w
  | w :: ws => w ++ space :: join ws

theorem join_cons_cons (w v : Wide) (vs : List Wide) :
    join (w :: v :: vs) = w ++ space :: join (v :: vs) := rfl

/-! ## Sizes -/

/-- The number of units of the words, each with a separator. -/
def size : List Wide → Nat
  | [] => 0
  | w :: ws => w.length + 1 + size ws

@[simp] theorem size_nil : size [] = 0 := rfl

@[simp] theorem size_cons (w : Wide) (ws : List Wide) :
    size (w :: ws) = w.length + 1 + size ws := rfl

theorem size_join {ws : List Wide} (h : ws ≠ []) : size ws = (join ws).length + 1 := by
  induction ws with
  | nil => exact absurd rfl h
  | cons w ws ih =>
    cases ws with
    | nil => simp [join]
    | cons v vs =>
      have hrest : size (v :: vs) = (join (v :: vs)).length + 1 := ih (by simp)
      simp only [join, size_cons, List.length_append, List.length_cons] at hrest ⊢
      omega

/-- What a reader has in hand. -/
def Reader.size : Reader → Nat
  | .gap => 0
  | .arg acc slashes _ => acc.length + slashes

@[simp] theorem Reader.size_gap : Reader.gap.size = 0 := rfl

@[simp] theorem Reader.size_arg (acc : Wide) (n : Nat) (q : Quoting) :
    (Reader.arg acc n q).size = acc.length + n := rfl

/-- A quote ahead costs a unit, unless it may be the second of a pair. -/
def lost (cs : Wide) : Quoting → Nat
  | .closed => 0
  | _ => if quote ∈ cs then 1 else 0

def Reader.lost (cs : Wide) : Reader → Nat
  | .gap => Argv.lost cs .outside
  | .arg _ _ q => Argv.lost cs q

@[simp] theorem Reader.lost_gap (cs : Wide) : Reader.gap.lost cs = Argv.lost cs .outside := rfl

@[simp] theorem Reader.lost_arg (cs acc : Wide) (n : Nat) (q : Quoting) :
    (Reader.arg acc n q).lost cs = Argv.lost cs q := rfl

theorem lost_le (cs : Wide) (q : Quoting) : lost cs q ≤ if quote ∈ cs then 1 else 0 := by
  cases q <;> simp [lost]

theorem lost_le_one (cs : Wide) (q : Quoting) : lost cs q ≤ 1 := by
  have := lost_le cs q
  split at this <;> omega

@[simp] theorem lost_settle (cs : Wide) (q : Quoting) :
    lost cs q.settle = if quote ∈ cs then 1 else 0 := by
  cases q <;> rfl

theorem lost_cons_of_ne {c : UInt16} (hc : c ≠ quote) (cs : Wide) (q : Quoting) :
    lost (c :: cs) q = lost cs q := by
  cases q <;> simp [lost, hc.symm]

theorem ne_quote_of_blank {c : UInt16} (h : isBlank c = true) : c ≠ quote := by
  rintro rfl
  exact absurd h (by decide)

/-- One unit read: the reader grows by at most one, and not at all when the loss is incurred. -/
theorem unit_size (acc : Wide) (n : Nat) (q : Quoting) (c : UInt16) (cs : Wide) :
    (Reader.unit acc n q c).size + lost (c :: cs) q ≤
      acc.length + n + 1 + (Reader.unit acc n q c).lost cs := by
  unfold Reader.unit
  by_cases hc : c = quote
  · rw [if_pos hc]
    have hone := lost_le_one (c :: cs) q
    unfold Reader.quoted
    split
    · simp only [Reader.size_arg, List.length_append, List.length_replicate,
        List.length_singleton]
      omega
    · cases q with
      | closed =>
        -- the second of a pair: the first has paid
        simp only [lost, Reader.size_arg, List.length_append, List.length_replicate,
          List.length_singleton]
        omega
      | outside | inside =>
        simp only [Reader.size_arg, List.length_append, List.length_replicate]
        omega
  · rw [if_neg hc, lost_cons_of_ne hc]
    have hle := lost_le cs q
    split
    · simp only [Reader.size_arg, Reader.lost_arg, lost_settle]
      omega
    · simp only [Reader.size_arg, Reader.lost_arg, lost_settle, List.length_append,
        List.length_replicate, List.length_singleton]
      omega

theorem size_args (cs : Wide) (r : Reader) :
    size (args r cs) + r.lost cs ≤ r.size + cs.length + 1 := by
  induction cs generalizing r with
  | nil => cases r with
    | gap => simp [args, lost]
    | arg acc n q =>
      have hle := lost_le [] q
      simp only [List.not_mem_nil, if_false, Nat.le_zero_eq] at hle
      simp [args, hle]
  | cons c cs ih =>
    have hgap := ih .gap
    cases r with
    | gap =>
      unfold args
      split
      · rename_i hb
        have hlost := lost_cons_of_ne (ne_quote_of_blank hb) cs .outside
        simp only [Reader.size_gap, Reader.lost_gap, List.length_cons] at hgap ⊢
        omega
      · have hrest := ih (.unit [] 0 .outside c)
        have hunit := unit_size [] 0 .outside c cs
        simp only [Reader.size_gap, Reader.lost_gap, List.length_cons, List.length_nil]
          at hunit ⊢
        omega
    | arg acc n q =>
      unfold args
      split
      · rename_i hb
        have hlost := lost_cons_of_ne (ne_quote_of_blank hb.1) cs q
        have hle := lost_le cs q
        have hgap' : lost cs .outside = if quote ∈ cs then 1 else 0 := rfl
        simp only [Reader.size_gap, Reader.lost_gap] at hgap
        simp only [Reader.size_arg, Reader.lost_arg, List.length_cons, size_cons,
          List.length_append, List.length_replicate]
        omega
      · have hrest := ih (.unit acc n q c)
        have hunit := unit_size acc n q c cs
        simp only [Reader.size_arg, Reader.lost_arg, List.length_cons]
        omega

theorem size_program (cs : Wide) (b : Bool) (name : Wide) :
    size (program b name cs) + lost cs .outside ≤ name.length + cs.length + 1 := by
  induction cs generalizing b name with
  | nil => simp [program, lost]
  | cons c cs ih =>
    unfold program
    split
    · have hrest := ih (!b) name
      have hone := lost_le_one (c :: cs) .outside
      simp only [List.length_cons]
      omega
    · rename_i hc
      have hlost := lost_cons_of_ne hc cs .outside
      split
      · have hrest := size_args cs .gap
        simp only [Reader.size_gap, Reader.lost_gap] at hrest
        simp only [List.length_cons, size_cons]
        omega
      · have hrest := ih b (name ++ [c])
        simp only [List.length_append, List.length_cons, List.length_nil] at hrest ⊢
        omega

theorem size_split_le (line : Wide) : size (split line) ≤ line.length + 1 := by
  have := size_program line false []
  simp only [List.length_nil] at this
  unfold split
  omega

theorem size_split_lt {line : Wide} (hq : quote ∈ line) : size (split line) < line.length + 1 := by
  have hsize := size_program line false []
  have hlost : lost line .outside = 1 := if_pos hq
  simp only [List.length_nil] at hsize
  unfold split
  omega

/-! ## Lines without a quote -/

/-- A word without a blank and without a quote. -/
def Word (w : Wide) : Prop := ∀ c ∈ w, isBlank c = false ∧ c ≠ quote

/-- What a line of such words joined needs to be: the arguments are not empty. -/
def Words : List Wide → Prop
  | [] => False
  | w :: ws => Word w ∧ ∀ v ∈ ws, Word v ∧ v ≠ []

instance : DecidablePred Word := fun w => inferInstanceAs (Decidable (∀ c ∈ w, _ ∧ _))

instance : DecidablePred Words
  | [] => isFalse id
  | w :: ws => inferInstanceAs (Decidable (Word w ∧ ∀ v ∈ ws, Word v ∧ v ≠ []))

/-- Outside quotes a unit other than a quote is added to what the reader holds. -/
theorem unit_outside (acc : Wide) (n : Nat) {c : UInt16} (hc : c ≠ quote) :
    ∃ acc' n', Reader.unit acc n .outside c = .arg acc' n' .outside ∧
      acc' ++ List.replicate n' backslash = acc ++ List.replicate n backslash ++ [c] := by
  unfold Reader.unit
  rw [if_neg hc]
  by_cases hb : c = backslash
  · rw [if_pos hb]
    refine ⟨acc, n + 1, rfl, ?_⟩
    rw [hb, List.replicate_succ', List.append_assoc]
  · rw [if_neg hb]
    exact ⟨_, 0, rfl, by simp⟩

theorem args_word {w : Wide} (hw : Word w) (acc : Wide) (n : Nat) (cs : Wide) :
    ∃ acc' n', args (.arg acc n .outside) (w ++ cs) = args (.arg acc' n' .outside) cs ∧
      acc' ++ List.replicate n' backslash = acc ++ List.replicate n backslash ++ w := by
  induction w generalizing acc n with
  | nil => exact ⟨acc, n, rfl, by simp⟩
  | cons c w ih =>
    obtain ⟨hblank, hquote⟩ := hw c List.mem_cons_self
    obtain ⟨acc₁, n₁, hunit, hheld₁⟩ := unit_outside acc n hquote
    obtain ⟨acc₂, n₂, hargs, hheld₂⟩ := ih (fun d hd => hw d (List.mem_cons_of_mem _ hd)) acc₁ n₁
    refine ⟨acc₂, n₂, ?_, ?_⟩
    · rw [← hargs, List.cons_append, args, if_neg (by simp [hblank]), hunit]
    · rw [hheld₂, hheld₁, List.append_assoc, List.singleton_append]

/-- Arguments without blanks and quotes, none of them empty, are read back. -/
theorem args_join {ws : List Wide} (hws : ∀ w ∈ ws, Word w ∧ w ≠ []) :
    args .gap (join ws) = ws := by
  induction ws with
  | nil => rfl
  | cons w ws ih =>
    obtain ⟨hword, hne⟩ := hws w List.mem_cons_self
    have hrest : args .gap (join ws) = ws := ih fun v hv => hws v (List.mem_cons_of_mem _ hv)
    obtain ⟨c, w, rfl⟩ := List.exists_cons_of_ne_nil hne
    obtain ⟨hblank, hquote⟩ := hword c List.mem_cons_self
    have hgap : ∀ cs, args .gap (c :: cs) = args (.unit [] 0 .outside c) cs := by
      intro cs
      rw [args, if_neg (by simp [hblank])]
    obtain ⟨acc, n, hunit, hheld⟩ := unit_outside [] 0 hquote
    have hw : Word w := fun d hd => hword d (List.mem_cons_of_mem _ hd)
    cases ws with
    | nil =>
      obtain ⟨acc', n', hargs, hheld'⟩ := args_word hw acc n []
      rw [List.append_nil] at hargs
      simp only [join, hgap, hunit, hargs, args, hheld', hheld]
      simp
    | cons v vs =>
      obtain ⟨acc', n', hargs, hheld'⟩ := args_word hw acc n (space :: join (v :: vs))
      simp only [join, List.cons_append, hgap, hunit, hargs]
      rw [args, if_pos (by decide), hheld', hheld, hrest]
      simp

theorem program_word {w : Wide} (hw : Word w) (name cs : Wide) :
    program false name (w ++ cs) = program false (name ++ w) cs := by
  induction w generalizing name with
  | nil => simp
  | cons c w ih =>
    obtain ⟨hblank, hquote⟩ := hw c List.mem_cons_self
    rw [List.cons_append, program, if_neg hquote, if_neg (by simp [hblank]),
      ih (fun d hd => hw d (List.mem_cons_of_mem _ hd)), List.append_assoc,
      List.singleton_append]

/-- Plain words joined with blanks are read back. -/
theorem split_join {ws : List Wide} (h : Words ws) : split (join ws) = ws := by
  cases ws with
  | nil => exact h.elim
  | cons w ws =>
    obtain ⟨hw, hws⟩ := h
    have hargs : args .gap (join ws) = ws := args_join hws
    unfold split
    cases ws with
    | nil =>
      have hword := program_word hw [] []
      simpa [join, program] using hword
    | cons v vs =>
      rw [join_cons_cons, program_word hw, List.nil_append, program, if_neg (by decide),
        if_pos (by decide), hargs]

/-- Without quotes no argument has a blank, and none is empty. -/
theorem words_args {cs : Wide} (hq : quote ∉ cs) {r : Reader}
    (hr : r = .gap ∨ ∃ acc n, r = .arg acc n .outside ∧
      Word (acc ++ List.replicate n backslash) ∧ acc ++ List.replicate n backslash ≠ []) :
    ∀ v ∈ args r cs, Word v ∧ v ≠ [] := by
  induction cs generalizing r with
  | nil =>
    rcases hr with rfl | ⟨acc, n, rfl, hword, hne⟩
    · intro v hv
      cases hv
    · intro v hv
      obtain rfl : v = acc ++ List.replicate n backslash := by simpa [args] using hv
      exact ⟨hword, hne⟩
  | cons c cs ih =>
    have hcq : c ≠ quote := fun e => hq (e ▸ List.mem_cons_self)
    have hq' : quote ∉ cs := fun hm => hq (List.mem_cons_of_mem _ hm)
    have hgap : ∀ v ∈ args .gap cs, Word v ∧ v ≠ [] := ih hq' (.inl rfl)
    -- one more unit keeps what is held a word
    have hunit : ∀ acc n, isBlank c = false → Word (acc ++ List.replicate n backslash) →
        ∀ v ∈ args (.unit acc n .outside c) cs, Word v ∧ v ≠ [] := by
      intro acc n hblank hword
      obtain ⟨acc', n', he, hheld⟩ := unit_outside acc n hcq
      apply ih hq'
      refine .inr ⟨acc', n', he, ?_⟩
      rw [hheld]
      refine ⟨?_, by simp⟩
      intro d hd
      rcases List.mem_append.1 hd with hd | hd
      · exact hword d hd
      · obtain rfl := List.mem_singleton.1 hd
        exact ⟨hblank, hcq⟩
    rcases hr with rfl | ⟨acc, n, rfl, hword, hne⟩
    · unfold args
      split
      · exact hgap
      · rename_i hb
        apply hunit [] 0 (by simpa using hb)
        intro d hd
        cases hd
    · unfold args
      split
      · intro v hv
        rcases List.mem_cons.1 hv with rfl | hv
        · exact ⟨hword, hne⟩
        · exact hgap v hv
      · rename_i hb
        exact hunit acc n (by simpa using hb) hword

theorem words_program {cs : Wide} (hq : quote ∉ cs) {name : Wide} (hname : Word name) :
    Words (program false name cs) := by
  induction cs generalizing name with
  | nil => exact ⟨hname, by simp⟩
  | cons c cs ih =>
    have hcq : c ≠ quote := fun e => hq (e ▸ List.mem_cons_self)
    have hq' : quote ∉ cs := fun hm => hq (List.mem_cons_of_mem _ hm)
    unfold program
    rw [if_neg hcq]
    split
    · exact ⟨hname, words_args hq' (.inl rfl)⟩
    · rename_i hb
      apply ih hq'
      intro d hd
      rcases List.mem_append.1 hd with hd | hd
      · exact hname d hd
      · obtain rfl := List.mem_singleton.1 hd
        exact ⟨by simpa using hb, hcq⟩

/-- A line without quotes is split into plain words. -/
theorem words_split {line : Wide} (hq : quote ∉ line) : Words (split line) := by
  apply words_program hq
  intro d hd
  cases hd

/-- The words joined with blanks, perhaps cut short, are read back exactly if nothing was cut and
the words are plain. -/
theorem split_prefix_join_iff {ws : List Wide} {line : Wide} (hws : ws ≠ [])
    (hpre : line <+: join ws) : split line = ws ↔ line = join ws ∧ Words ws := by
  constructor
  · intro h
    have hsize := size_join hws
    have hle := size_split_le line
    have hlen := hpre.length_le
    rw [h] at hle
    have hline : line = join ws := hpre.eq_of_length (by omega)
    refine ⟨hline, ?_⟩
    by_cases hq : quote ∈ line
    · have hlt := size_split_lt hq
      rw [h, hline] at hlt
      omega
    · rw [← h]
      exact words_split hq
  · rintro ⟨rfl, h⟩
    exact split_join h

end Argv
