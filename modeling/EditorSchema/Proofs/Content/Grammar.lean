/-
The grammar of expressions, and that reading accepts just what it derives.

A choice is one branch or several with bars between them, a branch is one item or several, and an
item is a name or a choice in parentheses.  Derivations are data here, so that it can be said of
them that they are unique, and what tree one stands for.

Reading keeps what is open as a stack.  The groups of the stack are derivations that have only
begun: some finished branches with a bar after each, and some items.  The tokens read so far are
those of the groups, with a parenthesis between each and the next, and that is kept from token to
token.  So at the place where reading ends, what has been read tells why it ends there, and as
tokens leave reading no choice, the reason can be read off the tokens alone.

* `Expression.Choice`, `Expression.Branch`, `Expression.Item`: derivations;
* `Expression.Choice.tokens`, `Expression.Choice.particle`: what is derived, and its tree;
* `Expression.Choice.tokens_inj`: no two derivations have the same tokens;
* `Expression.read_choice`: what the tokens of a derivation do while others are still to come;
* `Expression.Begun`, `Expression.before`: derivations that have begun;
* `Expression.comes_step`: one token more;
* `Expression.comes_iff`: what reading comes to;
* `Particle.parse_eq_iff`: reading accepts the grammar, and its faults.
-/
import Mathlib.Tactic
import EditorSchema.Proofs.Content.RoundTrip
import EditorSchema.Proofs.Content.Spelling

namespace EditorSchema

namespace Expression

open Particle (ofItems ofChoice)

/-! ### Derivations -/

mutual

/-- A choice: one branch, or several with bars between them. -/
inductive Choice where
  | last (branch : Branch)
  | bar (branch : Branch) (others : Choice)

/-- A branch: one item, or several. -/
inductive Branch where
  | last (item : Item)
  | next (item : Item) (others : Branch)

/-- An item: a name, or a choice in parentheses. -/
inductive Item where
  | name (ident : String)
  | group (choice : Choice)

end

mutual

/-- The tokens that a choice derives. -/
def Choice.tokens : Choice → List Token
  | .last b => b.tokens
  | .bar b c => b.tokens ++ .bar :: c.tokens

/-- The tokens that a branch derives. -/
def Branch.tokens : Branch → List Token
  | .last i => i.tokens
  | .next i b => i.tokens ++ b.tokens

/-- The tokens that an item derives. -/
def Item.tokens : Item → List Token
  | .name ident => [.name ident]
  | .group c => .opening :: (c.tokens ++ [.closing])

end

mutual

/-- The trees of the branches of a choice, each of which is the sequence of its items. -/
def Choice.branches : Choice → List Particle
  | .last b => [ofItems b.items]
  | .bar b c => ofItems b.items :: c.branches

/-- The trees of the items of a branch. -/
def Branch.items : Branch → List Particle
  | .last i => [i.particle]
  | .next i b => i.particle :: b.items

/-- The tree of an item.  In parentheses, what is no choice is a choice of one branch. -/
def Item.particle : Item → Particle
  | .name ident => .group ident
  | .group c =>
    if (ofChoice c.branches).isAlternate then ofChoice c.branches
    else .alternate [ofChoice c.branches]

end

/-- The tree of a choice: if it has one branch, that of the branch. -/
def Choice.particle (c : Choice) : Particle := ofChoice c.branches

/-! ### One derivation at most -/

/-- No branch goes on with a token. -/
def Token.EndsBranch : Token → Prop
  | .bar | .closing => True
  | .name _ | .opening => False

/-- An item begins with a token with which a branch goes on. -/
lemma Item.tokens_eq_cons (i : Item) : ∃ t l, i.tokens = t :: l ∧ ¬ t.EndsBranch := by
  cases i with
  | name ident => exact ⟨.name ident, [], rfl, id⟩
  | group c => exact ⟨.opening, c.tokens ++ [.closing], rfl, id⟩

lemma Branch.tokens_eq_cons (b : Branch) : ∃ t l, b.tokens = t :: l ∧ ¬ t.EndsBranch := by
  cases b with
  | last i => exact i.tokens_eq_cons
  | next i b =>
      obtain ⟨t, l, hi, ht⟩ := i.tokens_eq_cons
      exact ⟨t, l ++ b.tokens, by rw [Branch.tokens, hi, List.cons_append], ht⟩

/-- Where a branch ends no other one begins. -/
lemma Branch.ne_of_endsBranch {b : Branch} {r r' : List Token} (hr : ∀ t ∈ r.head?, t.EndsBranch) :
    r ≠ b.tokens ++ r' := by
  obtain ⟨t, l, hb, ht⟩ := b.tokens_eq_cons
  rintro rfl
  exact ht (hr t (by rw [hb]; rfl))

mutual

/-- A choice that ends before a closing parenthesis, or with the tokens, is told by its tokens. -/
theorem Choice.tokens_append_inj {c c' : Choice} {r r' : List Token}
    (hr : ∀ t ∈ r.head?, t = .closing) (hr' : ∀ t ∈ r'.head?, t = .closing)
    (h : c.tokens ++ r = c'.tokens ++ r') : c = c' ∧ r = r' := by
  have hends {r : List Token} (hr : ∀ t ∈ r.head?, t = .closing) : ∀ t ∈ r.head?, t.EndsBranch :=
    fun t ht => hr t ht ▸ trivial
  have hbar (l : List Token) : ∀ t ∈ (Token.bar :: l).head?, t.EndsBranch := by
    rintro _ ⟨⟩
    trivial
  match c, c' with
  | .last b, .last b' =>
      obtain ⟨rfl, rfl⟩ := Branch.tokens_append_inj (hends hr) (hends hr') h
      exact ⟨rfl, rfl⟩
  | .last b, .bar b' c' =>
      rw [Choice.tokens, Choice.tokens, List.append_assoc] at h
      obtain ⟨-, rfl⟩ := Branch.tokens_append_inj (hends hr) (hbar _) h
      exact absurd (hr .bar rfl) (by decide)
  | .bar b c, .last b' =>
      rw [Choice.tokens, Choice.tokens, List.append_assoc] at h
      obtain ⟨-, rfl⟩ := Branch.tokens_append_inj (hbar _) (hends hr') h
      exact absurd (hr' .bar rfl) (by decide)
  | .bar b c, .bar b' c' =>
      rw [Choice.tokens, Choice.tokens, List.append_assoc, List.append_assoc] at h
      obtain ⟨rfl, hc⟩ := Branch.tokens_append_inj (hbar _) (hbar _) h
      obtain ⟨rfl, rfl⟩ := Choice.tokens_append_inj hr hr' (List.cons.inj hc).2
      exact ⟨rfl, rfl⟩

/-- A branch that ends where no branch goes on is told by its tokens. -/
theorem Branch.tokens_append_inj {b b' : Branch} {r r' : List Token}
    (hr : ∀ t ∈ r.head?, t.EndsBranch) (hr' : ∀ t ∈ r'.head?, t.EndsBranch)
    (h : b.tokens ++ r = b'.tokens ++ r') : b = b' ∧ r = r' := by
  match b, b' with
  | .last i, .last i' =>
      obtain ⟨rfl, rfl⟩ := Item.tokens_append_inj h
      exact ⟨rfl, rfl⟩
  | .last i, .next i' b' =>
      rw [Branch.tokens, Branch.tokens, List.append_assoc] at h
      obtain ⟨-, hr''⟩ := Item.tokens_append_inj h
      exact absurd hr'' (Branch.ne_of_endsBranch hr)
  | .next i b, .last i' =>
      rw [Branch.tokens, Branch.tokens, List.append_assoc] at h
      obtain ⟨-, hr''⟩ := Item.tokens_append_inj h
      exact absurd hr''.symm (Branch.ne_of_endsBranch hr')
  | .next i b, .next i' b' =>
      rw [Branch.tokens, Branch.tokens, List.append_assoc, List.append_assoc] at h
      obtain ⟨rfl, hb⟩ := Item.tokens_append_inj h
      obtain ⟨rfl, rfl⟩ := Branch.tokens_append_inj hr hr' hb
      exact ⟨rfl, rfl⟩

/-- An item is told by its tokens, whatever follows. -/
theorem Item.tokens_append_inj {i i' : Item} {r r' : List Token}
    (h : i.tokens ++ r = i'.tokens ++ r') : i = i' ∧ r = r' := by
  have hclosing (l : List Token) : ∀ t ∈ ([Token.closing] ++ l).head?, t = .closing := by
    rintro _ ⟨⟩
    rfl
  match i, i' with
  | .name ident, .name ident' =>
      obtain ⟨hname, rfl⟩ := List.cons.inj h
      exact ⟨by rw [Token.name.inj hname], rfl⟩
  | .name ident, .group c' => exact absurd (List.cons.inj h).1 nofun
  | .group c, .name ident' => exact absurd (List.cons.inj h).1 nofun
  | .group c, .group c' =>
      rw [Item.tokens, Item.tokens, List.cons_append, List.cons_append, List.append_assoc,
        List.append_assoc] at h
      obtain ⟨rfl, hr⟩ := Choice.tokens_append_inj (hclosing _) (hclosing _) (List.cons.inj h).2
      exact ⟨rfl, (List.cons.inj hr).2⟩

end

/-- **No two derivations have the same tokens.** -/
theorem Choice.tokens_inj {c c' : Choice} (h : c.tokens = c'.tokens) : c = c' :=
  (Choice.tokens_append_inj (by simp) (by simp) (congrArg (· ++ []) h)).1

/-! ### Reading what is derived -/

variable {text : String}

/-- The group in which a choice has been read, after the branches that were there before. -/
def Choice.opened (before : List Particle) : Choice → Open
  | .last b => ⟨before, b.items⟩
  | .bar b c => c.opened (before ++ [ofItems b.items])

lemma Branch.items_ne_nil (b : Branch) : b.items ≠ [] := by
  cases b <;> rw [Branch.items] <;> exact List.cons_ne_nil _ _

lemma Branch.next_pushAll (b : Branch) (before : List Particle) :
    (Open.pushAll ⟨before, []⟩ b.items).next = .ok ⟨before ++ [ofItems b.items], []⟩ :=
  Open.next_eq_ok b.items_ne_nil

lemma Choice.finish_opened (c : Choice) (before : List Particle) :
    (c.opened before).finish = .ok (ofChoice (before ++ c.branches)) := by
  match c with
  | .last b => exact Open.finish_eq_ok b.items_ne_nil
  | .bar b c =>
      rw [Choice.opened, Choice.finish_opened c, Choice.branches, List.append_assoc,
        List.singleton_append]

lemma Choice.parenthesised_particle (c : Choice) :
    parenthesised c.particle = (Item.group c).particle := by
  rw [Choice.particle, Item.particle]
  cases ofChoice c.branches <;> rfl

mutual

/-- **What the tokens of a choice do** while others are still to come: they put its branches into
the group that is open, the last one still as items. -/
theorem read_choice (c : Choice) (rest : List Token) (before : List Particle) (outer : List Open) :
    read text (c.tokens ++ rest) ⟨before, []⟩ outer = read text rest (c.opened before) outer := by
  match c with
  | .last b => exact read_branch b rest ⟨before, []⟩ outer
  | .bar b c =>
      rw [Choice.tokens, List.append_assoc, List.cons_append, read_branch, read, b.next_pushAll]
      exact read_choice c rest (before ++ [ofItems b.items]) outer

/-- The tokens of a branch put its items into the group that is open. -/
theorem read_branch (b : Branch) (rest : List Token) (g : Open) (outer : List Open) :
    read text (b.tokens ++ rest) g outer = read text rest (g.pushAll b.items) outer := by
  match b with
  | .last i => exact read_item i rest g outer
  | .next i b =>
      rw [Branch.tokens, List.append_assoc, read_item, read_branch]
      exact congrArg (read text rest · outer) (Open.pushAll_append g [i.particle] b.items)

/-- The tokens of an item put it into the group that is open. -/
theorem read_item (i : Item) (rest : List Token) (g : Open) (outer : List Open) :
    read text (i.tokens ++ rest) g outer = read text rest (g.push i.particle) outer := by
  match i with
  | .name ident => rw [Item.tokens, List.singleton_append, read, Item.particle]
  | .group c =>
      have hfinish : (c.opened []).finish = .ok c.particle := c.finish_opened []
      rw [Item.tokens, List.cons_append, List.append_assoc, read, Open.start, read_choice,
        List.singleton_append, read, hfinish, ← c.parenthesised_particle]
      rfl

end

/-! ### Derivations that have begun -/

/-- A derivation of a choice that has begun: its finished branches and the items of its present
branch. -/
structure Begun where
  branches : List Branch
  items : List Item

namespace Begun

/-- The derivation before its first token. -/
def start : Begun := ⟨[], []⟩

/-- The derivation with one more item. -/
def push (b : Begun) (i : Item) : Begun := ⟨b.branches, b.items ++ [i]⟩

/-- The derivation with one more branch, and no item of the next. -/
def next (b : Begun) (branch : Branch) : Begun := ⟨b.branches ++ [branch], []⟩

/-- The tokens that have been derived. -/
def tokens (b : Begun) : List Token :=
  (b.branches.flatMap fun branch => branch.tokens ++ [.bar]) ++ b.items.flatMap Item.tokens

/-- The group that is open. -/
def opened (b : Begun) : Open :=
  ⟨b.branches.map fun branch => ofItems branch.items, b.items.map Item.particle⟩

variable {b : Begun}

lemma tokens_push (b : Begun) (i : Item) : (b.push i).tokens = b.tokens ++ i.tokens := by
  rw [tokens, tokens, push, List.flatMap_append, List.flatMap_singleton, List.append_assoc]

lemma opened_push (b : Begun) (i : Item) : (b.push i).opened = b.opened.push i.particle := by
  rw [opened, opened, push, Open.push, List.map_append, List.map_singleton]

/-- Items make a branch. -/
lemma exists_branch {items : List Item} (h : items ≠ []) :
    ∃ branch : Branch, branch.tokens = items.flatMap Item.tokens ∧
      branch.items = items.map Item.particle := by
  induction items with
  | nil => exact absurd rfl h
  | cons i items ih =>
      cases items with
      | nil => exact ⟨.last i, (List.flatMap_singleton ..).symm, rfl⟩
      | cons j items =>
          obtain ⟨branch, htokens, hitems⟩ := ih (List.cons_ne_nil _ _)
          refine ⟨.next i branch, ?_, ?_⟩
          · rw [Branch.tokens, htokens]
            rfl
          · rw [Branch.items, hitems]
            rfl

/-- Branches make a choice. -/
lemma exists_choice (branches : List Branch) (branch : Branch) :
    ∃ c : Choice, c.tokens = (branches.flatMap fun b => b.tokens ++ [.bar]) ++ branch.tokens ∧
      c.branches = (branches.map fun b => ofItems b.items) ++ [ofItems branch.items] := by
  induction branches with
  | nil => exact ⟨.last branch, rfl, rfl⟩
  | cons b branches ih =>
      obtain ⟨c, htokens, hbranches⟩ := ih
      refine ⟨.bar b c, ?_, ?_⟩
      · rw [Choice.tokens, htokens, List.flatMap_cons, List.append_assoc, List.append_assoc,
          List.singleton_append]
      · rw [Choice.branches, hbranches, List.map_cons, List.cons_append]

lemma opened_items_ne_nil (h : b.items ≠ []) : b.opened.items ≠ [] :=
  fun hnil => h (List.map_eq_nil_iff.mp hnil)

/-- A present branch with an item can be finished, and with it the choice. -/
lemma finish_opened (h : b.items ≠ []) :
    ∃ c : Choice, c.tokens = b.tokens ∧ b.opened.finish = .ok c.particle := by
  obtain ⟨branch, htokens, hitems⟩ := exists_branch h
  obtain ⟨c, hc, hbranches⟩ := exists_choice b.branches branch
  refine ⟨c, by rw [hc, htokens, tokens], ?_⟩
  rw [Open.finish_eq_ok (opened_items_ne_nil h), Choice.particle, hbranches, hitems]
  rfl

lemma next_opened (h : b.items ≠ []) :
    ∃ branch : Branch, b.tokens ++ [.bar] = (b.next branch).tokens ∧
      b.opened.next = .ok (b.next branch).opened := by
  obtain ⟨branch, htokens, hitems⟩ := exists_branch h
  refine ⟨branch, ?_, ?_⟩
  · rw [tokens, tokens, next, List.flatMap_append, List.flatMap_singleton, htokens,
      List.flatMap_nil, List.append_nil, List.append_assoc]
  · rw [Open.next_eq_ok (opened_items_ne_nil h), opened, opened, next, List.map_append,
      List.map_singleton, hitems]
    rfl

/-- Where the present branch has no item and ends, reading fails. -/
lemma read_opened_of_nil (h : b.items = []) {rest : List Token}
    (hrest : ∀ t ∈ rest.head?, t.EndsBranch) (outer : List Open) :
    read text rest b.opened outer = .error .noItem := by
  have hbranch : b.opened.branch = .error .noItem := by rw [opened, h]; rfl
  have hfinish : b.opened.finish = .error .noItem := by rw [Open.finish, hbranch]; rfl
  cases rest with
  | nil =>
      cases outer with
      | nil => rw [read, hfinish]
      | cons g outer => rw [read, hfinish]; rfl
  | cons t rest =>
      cases t with
      | name ident => exact (hrest (.name ident) rfl).elim
      | opening => exact (hrest .opening rfl).elim
      | bar => rw [read, Open.next, hbranch]; rfl
      | closing => cases outer <;> rw [read, hfinish] <;> rfl

end Begun

/-- The tokens before the innermost of the groups that are open, each with the parenthesis that
opens the next one. -/
def before : List Begun → List Token
  | [] => []
  | b :: outer => before outer ++ b.tokens ++ [.opening]

/-- **What reading comes to**, told by the tokens. -/
inductive Comes (text : String) (ts : List Token) : Except Fault Particle → Prop where
  /-- The tokens are those of a choice. -/
  | ok (c : Choice) (h : ts = c.tokens) : Comes text ts (.ok c.particle)
  /-- There is a parenthesis after a choice that closes no group. -/
  | surplusClosing (c : Choice) (rest : List Token) (h : ts = c.tokens ++ .closing :: rest) :
      Comes text ts (.error (.surplusClosing text))
  /-- The tokens end after a choice in a group that is open. -/
  | unclosed (b : Begun) (outer : List Begun) (c : Choice)
      (h : ts = before (b :: outer) ++ c.tokens) : Comes text ts (.error .unclosed)
  /-- The tokens end, or there is a bar or a closing parenthesis, where an item should be. -/
  | noItem (b : Begun) (outer : List Begun) (rest : List Token) (hb : b.items = [])
      (hrest : ∀ t ∈ rest.head?, t.EndsBranch) (h : ts = before outer ++ b.tokens ++ rest) :
      Comes text ts (.error .noItem)

/-- Where the present branch has no item and ends, reading comes to a missing item. -/
lemma comes_noItem {b : Begun} {rest : List Token} (hb : b.items = [])
    (hrest : ∀ t ∈ rest.head?, t.EndsBranch) (outer : List Begun) :
    Comes text (before outer ++ b.tokens ++ rest)
      (read text rest b.opened (outer.map Begun.opened)) := by
  rw [Begun.read_opened_of_nil hb hrest]
  exact .noItem b outer rest hb hrest rfl

/-- What reading comes to where derivations have begun and the tokens end. -/
lemma comes_end (b : Begun) (outer : List Begun) :
    Comes text (before outer ++ b.tokens) (read text [] b.opened (outer.map Begun.opened)) := by
  by_cases hb : b.items = []
  · rw [← List.append_nil (before outer ++ b.tokens)]
    exact comes_noItem hb (by simp) outer
  obtain ⟨c, hc, hfinish⟩ := Begun.finish_opened hb
  cases outer with
  | nil =>
      rw [List.map_nil, read, hfinish]
      exact .ok c (by rw [hc, before, List.nil_append])
  | cons o outer =>
      rw [List.map_cons, read, hfinish]
      exact .unclosed o outer c (by rw [hc])

/-- **One token more**: either reading ends at it, or it goes to the derivations that have begun. -/
theorem comes_step (t : Token) (rest : List Token) (b : Begun) (outer : List Begun) :
    Comes text (before outer ++ b.tokens ++ t :: rest)
        (read text (t :: rest) b.opened (outer.map Begun.opened)) ∨
      ∃ (b' : Begun) (outer' : List Begun),
        before outer' ++ b'.tokens = before outer ++ b.tokens ++ [t] ∧
        read text (t :: rest) b.opened (outer.map Begun.opened) =
          read text rest b'.opened (outer'.map Begun.opened) := by
  cases t with
  | name ident =>
      refine .inr ⟨b.push (.name ident), outer, ?_, ?_⟩
      · rw [Begun.tokens_push, Item.tokens, List.append_assoc]
      · rw [read, Begun.opened_push, Item.particle]
  | opening =>
      refine .inr ⟨.start, b :: outer, ?_, ?_⟩
      · exact List.append_nil (before (b :: outer))
      · rw [read]
        rfl
  | bar =>
      by_cases hb : b.items = []
      · exact .inl (comes_noItem hb (by simp [Token.EndsBranch]) outer)
      obtain ⟨branch, hbranch, hnext⟩ := Begun.next_opened hb
      refine .inr ⟨b.next branch, outer, ?_, ?_⟩
      · rw [← hbranch, List.append_assoc]
      · rw [read, hnext]
        rfl
  | closing =>
      by_cases hb : b.items = []
      · exact .inl (comes_noItem hb (by simp [Token.EndsBranch]) outer)
      obtain ⟨c, hc, hfinish⟩ := Begun.finish_opened hb
      cases outer with
      | nil =>
          left
          rw [List.map_nil, read, hfinish]
          exact .surplusClosing c rest (by rw [hc, before, List.nil_append])
      | cons o outer =>
          -- the group around it has one more item
          refine .inr ⟨o.push (.group c), outer, ?_, ?_⟩
          · simp [before, Begun.tokens_push, Item.tokens, hc]
          · rw [List.map_cons, read, hfinish, Begun.opened_push, ← c.parenthesised_particle]
            rfl

/-- What reading comes to where derivations have begun and other tokens are still to come. -/
theorem comes_read (rest : List Token) (b : Begun) (outer : List Begun) :
    Comes text (before outer ++ b.tokens ++ rest)
      (read text rest b.opened (outer.map Begun.opened)) := by
  induction rest generalizing b outer with
  | nil =>
      rw [List.append_nil]
      exact comes_end b outer
  | cons t rest ih =>
      rcases comes_step t rest b outer with hends | ⟨b', outer', htokens, hread⟩
      · exact hends
      · have hmore : before outer ++ b.tokens ++ t :: rest =
            before outer' ++ b'.tokens ++ rest := by
          rw [htokens, List.append_assoc, List.append_assoc, List.append_assoc,
            List.singleton_append]
        rw [hmore, hread]
        exact ih b' outer'

lemma read_items (items : List Item) (rest : List Token) (g : Open) (outer : List Open) :
    read text (items.flatMap Item.tokens ++ rest) g outer =
      read text rest (g.pushAll (items.map Item.particle)) outer := by
  induction items generalizing g with
  | nil => rw [List.map_nil, Open.pushAll_nil]; rfl
  | cons i items ih =>
      rw [List.flatMap_cons, List.append_assoc, read_item, ih]
      exact congrArg (read text rest · outer)
        (Open.pushAll_append g [i.particle] (items.map Item.particle))

lemma read_finished (branches : List Branch) (rest : List Token) (before : List Particle)
    (outer : List Open) :
    read text ((branches.flatMap fun b => b.tokens ++ [.bar]) ++ rest) ⟨before, []⟩ outer =
      read text rest ⟨before ++ branches.map fun b => ofItems b.items, []⟩ outer := by
  induction branches generalizing before with
  | nil => rw [List.map_nil, List.append_nil]; rfl
  | cons b branches ih =>
      have hothers := ih (before ++ [ofItems b.items])
      rw [List.append_assoc, List.singleton_append] at hothers
      rw [List.flatMap_cons, List.append_assoc, List.append_assoc, read_branch,
        List.singleton_append, read, b.next_pushAll, List.map_cons]
      exact hothers

/-- Reading goes on from what has been derived so far. -/
lemma read_begun (b : Begun) (rest : List Token) (outer : List Open) :
    read text (b.tokens ++ rest) .start outer = read text rest b.opened outer := by
  rw [Begun.tokens, List.append_assoc, Open.start, read_finished, read_items]
  rfl

lemma read_before (outer : List Begun) (rest : List Token) :
    read text (before outer ++ rest) .start [] =
      read text rest .start (outer.map Begun.opened) := by
  induction outer generalizing rest with
  | nil => rfl
  | cons b outer ih =>
      rw [before, List.append_assoc, List.append_assoc, ih, read_begun, List.singleton_append, read,
        List.map_cons]

/-- **What reading comes to** can be told from the tokens, and only in one way. -/
theorem comes_iff {ts : List Token} {outcome : Except Fault Particle} :
    Comes text ts outcome ↔ read text ts .start [] = outcome := by
  constructor
  · intro h
    have hread (c : Choice) (rest : List Token) (outer : List Open) :
        read text (c.tokens ++ rest) .start outer = read text rest (c.opened []) outer :=
      read_choice c rest [] outer
    have hfinish (c : Choice) : (c.opened []).finish = .ok c.particle := c.finish_opened []
    cases h with
    | ok c h => rw [h, ← List.append_nil c.tokens, hread, read, hfinish]
    | surplusClosing c rest h => rw [h, hread, read, hfinish]; rfl
    | unclosed b outer c h =>
        rw [h, read_before, ← List.append_nil c.tokens, hread, List.map_cons, read, hfinish]
        rfl
    | noItem b outer rest hb hrest h =>
        rw [h, List.append_assoc, read_before, read_begun, Begun.read_opened_of_nil hb hrest]
  · rintro rfl
    exact comes_read ts .start []

section Outcomes

variable {ts : List Token}

lemma comes_ok_iff {t : Particle} :
    Comes text ts (.ok t) ↔ ∃ c : Choice, c.tokens = ts ∧ c.particle = t := by
  constructor
  · intro h
    cases h with
    | ok c h => exact ⟨c, h.symm, rfl⟩
  · rintro ⟨c, h, rfl⟩
    exact .ok c h.symm

lemma comes_surplusClosing_iff {text' : String} :
    Comes text ts (.error (.surplusClosing text')) ↔
      text' = text ∧ ∃ (c : Choice) (rest : List Token), ts = c.tokens ++ .closing :: rest := by
  constructor
  · intro h
    cases h with
    | surplusClosing c rest h => exact ⟨rfl, c, rest, h⟩
  · rintro ⟨rfl, c, rest, h⟩
    exact .surplusClosing c rest h

lemma comes_unclosed_iff :
    Comes text ts (.error .unclosed) ↔
      ∃ outer, outer ≠ [] ∧ ∃ c : Choice, ts = before outer ++ c.tokens := by
  constructor
  · intro h
    cases h with
    | unclosed b outer c h => exact ⟨b :: outer, List.cons_ne_nil _ _, c, h⟩
  · rintro ⟨outer, hne, c, h⟩
    cases outer with
    | nil => exact absurd rfl hne
    | cons b outer => exact .unclosed b outer c h

lemma comes_noItem_iff :
    Comes text ts (.error .noItem) ↔ ∃ (outer : List Begun) (b : Begun) (rest : List Token),
      b.items = [] ∧ (∀ t ∈ rest.head?, t.EndsBranch) ∧
        ts = before outer ++ b.tokens ++ rest := by
  constructor
  · intro h
    cases h with
    | noItem b outer rest hb hrest h => exact ⟨outer, b, rest, hb, hrest, h⟩
  · rintro ⟨outer, b, rest, hb, hrest, h⟩
    exact .noItem b outer rest hb hrest h

end Outcomes

/-- A fault as it is reported of a text. -/
def Fault.about (text : String) : Fault → Fault
  | .surplusClosing _ => .surplusClosing text
  | fault => fault

/-- Texts with the same tokens come to the same, but for the text that a fault reports. -/
lemma Comes.about {ts : List Token} {outcome : Except Fault Particle} (h : Comes text ts outcome)
    (text' : String) : Comes text' ts (outcome.mapError (Fault.about text')) := by
  cases h with
  | ok c h => exact .ok c h
  | surplusClosing c rest h => exact .surplusClosing c rest h
  | unclosed b outer c h => exact .unclosed b outer c h
  | noItem b outer rest hb hrest h => exact .noItem b outer rest hb hrest h

end Expression

/-! ### Reading a text -/

namespace Particle

open Expression

lemma comes_parse {s : String} {ts : List Token} {outcome : Except Fault Particle}
    (h : Spells s.toList ts) : Comes s ts outcome ↔ parse s = outcome := by
  rw [comes_iff, parse, spells_iff.mp h]

/-- **Reading accepts the grammar.**  A text spells tokens in one way.  It is read just if they are
those of a choice, of which there is one derivation at most, and then it is read as the tree of
that derivation.  A parenthesis is reported as surplus just where it comes after a choice and closes
no group, a group as unclosed just where the tokens end after a choice inside it, and an item as
missing just where the tokens end, or a bar or a closing parenthesis comes, where one should be.
Blanks may be put for others, and left out where no name would go on: that changes nothing but
the text which a fault reports. -/
theorem parse_eq_iff (s : String) :
    ∃ ts, (∀ ts', Spells s.toList ts' ↔ ts' = ts) ∧
      (∀ t, parse s = .ok t ↔ ∃ c : Choice, c.tokens = ts ∧ c.particle = t) ∧
      (∀ c c' : Choice, c.tokens = ts → c'.tokens = ts → c = c') ∧
      (∀ text, parse s = .error (.surplusClosing text) ↔
        text = s ∧ ∃ (c : Choice) (rest : List Token), ts = c.tokens ++ .closing :: rest) ∧
      (parse s = .error .unclosed ↔
        ∃ outer, outer ≠ [] ∧ ∃ c : Choice, ts = before outer ++ c.tokens) ∧
      (parse s = .error .noItem ↔ ∃ (outer : List Begun) (b : Begun) (rest : List Token),
        b.items = [] ∧ (∀ t ∈ rest.head?, t.EndsBranch) ∧
          ts = before outer ++ b.tokens ++ rest) ∧
      ∀ l w w' m : String, s = l ++ w ++ m →
        (∀ c ∈ w.toList, Text.isBlank c = true) → (∀ c ∈ w'.toList, Text.isBlank c = true) →
        w ≠ "" ∧ w' ≠ "" ∨ Apart l.toList m.toList →
        parse (l ++ w' ++ m) = (parse s).mapError (Fault.about (l ++ w' ++ m)) := by
  have hspells : Spells s.toList (Expression.tokens s.toList) := spells_iff.mpr rfl
  have hcomes {outcome : Except Fault Particle} :
      parse s = outcome ↔ Comes s (Expression.tokens s.toList) outcome := (comes_parse hspells).symm
  refine ⟨Expression.tokens s.toList, fun ts' => ?_, fun t => hcomes.trans comes_ok_iff,
    fun c c' hc hc' => Choice.tokens_inj (hc.trans hc'.symm),
    fun text => hcomes.trans comes_surplusClosing_iff, hcomes.trans comes_unclosed_iff,
    hcomes.trans comes_noItem_iff, fun l w w' m hs hw hw' hblank => ?_⟩
  · rw [spells_iff, eq_comm]
  · have hsame : Expression.tokens (l ++ w' ++ m).toList = Expression.tokens s.toList := by
      subst hs
      simp only [String.toList_append]
      exact (tokens_respaced hw hw' (hblank.imp_left fun h => by simpa using h)).symm
    rw [← comes_parse (spells_iff.mpr hsame)]
    exact (hcomes.mp rfl).about _

/-- A parenthesis too many is told with the expression as it is spelled, blanks included.  Two parts
are a sequence, and a parenthesis that stays open is a fault. -/
theorem parse_eq_iff_spaced :
    Spells "a)b".toList [.name "a", .closing, .name "b"] ∧
      parse "a)b" = .error (.surplusClosing "a)b") ∧
      (Fault.surplusClosing "a)b").message = "Unexpected ')' in content expression 'a)b'" ∧
      parse "a  )b" = .error (.surplusClosing "a  )b") ∧
      (∃ c : Choice, c.tokens = [.name "a", .opening, .name "b", .closing] ∧
        parse "a (b)" = .ok c.particle ∧
        c.particle = .sequence [.group "a", .alternate [.group "b"]]) ∧
      parse "a|(b" = .error .unclosed := by
  have hspells : Spells "a)b".toList [.name "a", .closing, .name "b"] := spells_iff.mpr (by cbv)
  obtain ⟨ts, hts, -, -, hsurplus, -, -, hblank⟩ := parse_eq_iff "a)b"
  obtain rfl := (hts _).mp hspells
  have hfault := (hsurplus "a)b").mpr ⟨rfl, .last (.last (.name "a")), [.name "b"], rfl⟩
  have hblanks : ∀ c ∈ "  ".toList, Text.isBlank c = true := List.all_eq_true.mp (by decide)
  have hapart : Apart "a".toList ")b".toList := .inr (by rintro _ ⟨⟩; decide)
  have hspaced := hblank "a" "" "  " ")b" rfl (by simp) hblanks (.inr hapart)
  have hparens : Spells "a (b)".toList [.name "a", .opening, .name "b", .closing] :=
    spells_iff.mpr (by cbv)
  obtain ⟨ts, hts, hok, -⟩ := parse_eq_iff "a (b)"
  obtain rfl := (hts _).mp hparens
  have hread := (hok _).mpr
    ⟨.last (.next (.name "a") (.last (.group (.last (.last (.name "b")))))), rfl, rfl⟩
  have hopen : Spells "a|(b".toList [.name "a", .bar, .opening, .name "b"] :=
    spells_iff.mpr (by cbv)
  obtain ⟨ts, hts, -, -, -, hunclosed, -⟩ := parse_eq_iff "a|(b"
  obtain rfl := (hts _).mp hopen
  have hinside := hunclosed.mpr ⟨[⟨[.last (.name "a")], []⟩], List.cons_ne_nil _ _,
    .last (.last (.name "b")), rfl⟩
  rw [hfault] at hspaced
  exact ⟨hspells, hfault, rfl, hspaced, ⟨_, rfl, hread, rfl⟩, hinside⟩

end Particle

end EditorSchema
