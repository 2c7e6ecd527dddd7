import Ownership.Proofs.Source.Acceptance
import Ownership.Proofs.Source.Splitting
import Ownership.Source.Reader

/-!
The language of the program text. Patterns, statements and declarations are parsed
just as the grammar derives them, like types and expressions; so a text is read
just if it splits into tokens that the grammar derives a program from.
-/
namespace Ownership.Surface

open Outcome

theorem SubPattern.Derives.begins {ts : List Token} {x : SubPattern} (h : SubPattern.Derives ts x) :
    Begins [.fixed "ref", .fixed "mut", .name, .fixed "_"] ts := by
  cases h with
  | skip h => exact .of_fixed h (by decide)
  | bind hr hm hn =>
    rw [List.append_assoc]
    exact (hr.begins (hm.begins (Begins.of_spelling hn (List.mem_singleton_self _)))).mono (by decide)

theorem subPattern_complete (k : Nat) : Completes subPattern SubPattern.Derives k [] := by
  intro c ts x c' hreads h _ _
  have hrange := hreads.range h.begins.ne_nil
  cases h with
  | skip h =>
    rw [subPattern, if_pos (h.sees hreads), h.next hreads]
    rfl
  | bind hr hm hn =>
    obtain ⟨c₂, hhead, hns⟩ := hreads.split
    obtain ⟨c₁, hrs, hms⟩ := hhead.split
    have hbegins := Begins.of_spelling hn (List.mem_singleton_self Terminal.name)
    have hnext := hm.begins hbegins
    have hmut := hm.optional hms (hn.not_sees hns "mut")
    have href := hr.optional hrs ((hms.trans hns).avoids (L := ["ref"]) hnext (by decide) _ List.mem_cons_self)
    have hskip : c.sees "_" = false := by
      rw [List.append_assoc] at hreads
      exact hreads.avoids (L := ["_"]) (hr.begins hnext) (by decide) _ List.mem_cons_self
    rw [subPattern, if_neg (by simp [hskip])]
    simp only [href, hmut]
    refine bind_eq_ok.mpr ⟨_, hn.word hns, ?_⟩
    dsimp only
    rw [hrange]
    rfl

theorem subPatterns_complete (n : Nat) :
    Completes (subPatterns n) (OrEmpty (Enclosed "(" ")" (Commas SubPattern.Derives))) n ["("] :=
  enclosedList_complete (subPattern_complete n) SubPattern.Derives.begins (by decide) (by decide) (Nat.le_refl n)

theorem Pattern.Derives.begins {ts : List Token} {x : Pattern} (h : Pattern.Derives ts x) :
    Begins [.name, .fixed "_"] ts := by
  cases h with
  | wildcard h => exact .of_fixed h (by decide)
  | variant hn _ => exact (Begins.of_spelling hn (by decide)).append _
  | qualified hn _ _ => exact ((Begins.of_spelling hn (by decide)).append _).append _

theorem pattern_complete (n : Nat) : Completes (pattern n) Pattern.Derives n ["(", "::"] := by
  intro c ts x c' hreads h hk havoids
  have hrange := hreads.range h.begins.ne_nil
  have hfields := subPatterns_complete n
  cases h with
  | wildcard h =>
    rw [pattern, if_pos (h.sees hreads), h.next hreads]
    rfl
  | variant hn hf =>
    obtain ⟨c₁, hns, hfs⟩ := hreads.split
    simp only [List.length_append] at hk
    have hcolons : c₁.sees "::" = false := by
      cases hf with
      | empty =>
        obtain rfl := hfs.eq_of_nil
        exact havoids "::" (by decide)
      | given hf =>
        exact hfs.avoids (L := ["::"]) (.of_enclosed hf (List.mem_singleton_self _)) (by decide) _ List.mem_cons_self
    rw [pattern, if_neg (by simp [hn.not_sees hns])]
    refine bind_eq_ok.mpr ⟨_, hn.word hns, ?_⟩
    simp only [hcolons, Bool.false_eq_true, if_false]
    refine bind_eq_ok.mpr ⟨_, hfields hfs hf (by omega) (havoids.mono (by decide)), ?_⟩
    dsimp only
    rw [hrange]
    rfl
  | qualified hn hv hf =>
    cases hv with
    | mk hd hv =>
      obtain ⟨c₃, hhead, hfs⟩ := hreads.split
      obtain ⟨c₁, hns, hstep⟩ := hhead.split
      obtain ⟨c₂, hds, hvs⟩ := hstep.split
      simp only [List.length_append] at hk
      rw [pattern, if_neg (by simp [hn.not_sees hns])]
      refine bind_eq_ok.mpr ⟨_, hn.word hns, ?_⟩
      simp only [hd.sees hds, if_true, hd.next hds]
      refine bind_eq_ok.mpr ⟨_, hv.word hvs, ?_⟩
      refine bind_eq_ok.mpr ⟨_, hfields hfs hf (by omega) (havoids.mono (by decide)), ?_⟩
      dsimp only
      rw [hrange]
      rfl

theorem typeAfter_complete (text : String) (n : Nat) :
    Completes (typeAfter text n) (Maybe (After text Ty.Derives)) n [text, "<"] := by
  intro c ts x c' hreads h hk havoids
  cases h with
  | none =>
    obtain rfl := hreads.eq_of_nil
    simp [typeAfter, havoids text List.mem_cons_self]
  | some h =>
    cases h with
    | mk hc h =>
      obtain ⟨c₁, hcs, hts⟩ := hreads.split
      simp only [List.length_append] at hk
      rw [typeAfter, if_pos (hc.sees hcs), hc.next hcs]
      have htype := type_complete n hts h (by omega) (havoids.mono (List.subset_cons_self _ _))
      exact bind_eq_ok.mpr ⟨_, htype, rfl⟩

/-- All phrases of statements that are short enough for this much fuel are read. -/
structure StmtComplete (n : Nat) : Prop where
  stmt : Completes (stmt n) Stmt.Derives (n / 16) ["else"]
  block : Completes (block n) Block.Derives ((n + 1) / 16) []
  branch : Completes (branch n) Branch.Derives ((n + 1) / 16) ["else"]
  alternative : 0 < n → Completes (alternative n) Alternative.Derives (n / 16) ["else"]
  arm : Completes (arm n) Arm.Derives (n / 16) [","]

theorem Block.Derives.begins {ts : List Token} {x : Block} (h : Block.Derives ts x) : Begins [.fixed "\x7b"] ts := by
  cases h with
  | mk h => exact .of_enclosed h List.mem_cons_self

theorem Branch.Derives.begins {ts : List Token} {x : Branch} (h : Branch.Derives ts x) : Begins [.fixed "if"] ts := by
  cases h with
  | mk h _ _ => exact ((Begins.of_after h List.mem_cons_self).append _).append _

theorem Arm.Derives.begins {ts : List Token} {x : Arm} (h : Arm.Derives ts x) : Begins [.name, .fixed "_"] ts := by
  cases h with
  | mk h _ _ => exact (h.begins.append _).append _

/-- What a statement can start with. -/
def stmtFirst : List Terminal :=
  [.fixed "let", .fixed "if", .fixed "loop", .fixed "while", .fixed "break", .fixed "continue", .fixed "return",
    .fixed "match", .fixed "\x7b"] ++ Level.disjunction.first

theorem Stmt.Derives.begins {ts : List Token} {x : Stmt} (h : Stmt.Derives ts x) : Begins stmtFirst ts := by
  cases h with
  | declare h _ _ _ _ _ => exact (((((Begins.of_fixed h (by decide)).append _).append _).append _).append _).append _
  | assign h _ _ => exact ((h.begins.mono (by decide)).append _).append _
  | eval h _ => exact (h.begins.mono (by decide)).append _
  | branch h => exact h.begins.mono (by decide)
  | loop h => exact .of_after h (by decide)
  | whileLoop h _ => exact (Begins.of_after h (by decide)).append _
  | breakLoop h _ | continueLoop h _ => exact (Begins.of_fixed h (by decide)).append _
  | ret h _ _ => exact ((Begins.of_fixed h (by decide)).append _).append _
  | select h _ => exact (Begins.of_after h (by decide)).append _
  | block h => exact h.begins.mono (by decide)

namespace StmtComplete

variable {n : Nat}

theorem block_succ (ih : StmtComplete n) : Completes (Surface.block (n + 1)) Block.Derives ((n + 1 + 1) / 16) [] := by
  intro c ts x c' hreads h hk _
  have hrange := hreads.range h.begins.ne_nil
  cases h with
  | mk h =>
    cases h with
    | mk hl h hr =>
      obtain ⟨c₂, hhead, hright⟩ := hreads.split
      obtain ⟨c₁, hleft, hts⟩ := hhead.split
      have hposl := List.length_pos_iff.mpr hl.ne_nil
      simp only [List.length_append] at hk
      have hlist := itemsUntil_complete (n := n) ih.stmt Stmt.Derives.begins (by decide) (by decide) (by decide)
        hts h hr hright (by omega) (by omega)
      rw [Surface.block]
      refine bind_eq_ok.mpr ⟨_, hl.expect hleft, bind_eq_ok.mpr ⟨_, hlist, ?_⟩⟩
      dsimp only
      rw [hr.next hright, hrange]
      rfl

theorem alternative_succ (ih : StmtComplete n) :
    Completes (Surface.alternative (n + 1)) Alternative.Derives ((n + 1) / 16) ["else"] := by
  intro c ts x c' hreads h hk havoids
  cases h with
  | nothing =>
    obtain rfl := hreads.eq_of_nil
    rw [Surface.alternative, if_neg (by simp [havoids "else" List.mem_cons_self])]
    rfl
  | block h =>
    cases h with
    | mk he h =>
      obtain ⟨c₁, hes, hts⟩ := hreads.split
      have hpose := List.length_pos_iff.mpr he.ne_nil
      simp only [List.length_append] at hk
      have hif : c₁.sees "if" = false := hts.avoids (L := ["if"]) h.begins (by decide) _ List.mem_cons_self
      rw [Surface.alternative, if_pos (he.sees hes), he.next hes]
      simp only [hif, Bool.false_eq_true, if_false]
      exact bind_eq_ok.mpr ⟨_, ih.block hts h (by omega) (fun _ h => by cases h), rfl⟩
  | branch h =>
    cases h with
    | mk he h =>
      obtain ⟨c₁, hes, hts⟩ := hreads.split
      have hpose := List.length_pos_iff.mpr he.ne_nil
      simp only [List.length_append] at hk
      have hif : c₁.sees "if" = true := by simp [h.begins.sees_iff hts]
      rw [Surface.alternative, if_pos (he.sees hes), he.next hes]
      simp only [hif, if_true]
      exact bind_eq_ok.mpr ⟨_, ih.branch hts h (by omega) havoids, rfl⟩

theorem branch_succ (ih : StmtComplete n) :
    Completes (Surface.branch (n + 1)) Branch.Derives ((n + 1 + 1) / 16) ["else"] := by
  intro c ts x c' hreads h hk havoids
  have hrange := hreads.range h.begins.ne_nil
  cases h with
  | mk hc hy hn =>
    cases hc with
    | mk hi hc =>
      obtain ⟨c₃, hhead, hns⟩ := hreads.split
      obtain ⟨c₂, hhead, hys⟩ := hhead.split
      obtain ⟨c₁, his, hcs⟩ := hhead.split
      have hposi := List.length_pos_iff.mpr hi.ne_nil
      have hposy := length_pos_of_begins hy.begins
      simp only [List.length_append] at hk
      have hcond := expr_complete n hcs hc (by omega) (hys.avoids hy.begins (by decide))
      rw [Surface.branch]
      refine bind_eq_ok.mpr ⟨_, hi.expect his, bind_eq_ok.mpr ⟨_, hcond, ?_⟩⟩
      refine bind_eq_ok.mpr ⟨_, ih.block hys hy (by omega) (fun _ h => by cases h), ?_⟩
      refine bind_eq_ok.mpr ⟨_, ih.alternative (by omega) hns hn (by omega) havoids, ?_⟩
      dsimp only
      rw [hrange]
      rfl

theorem arm_succ (ih : StmtComplete n) : Completes (Surface.arm (n + 1)) Arm.Derives ((n + 1) / 16) [","] := by
  intro c ts x c' hreads h hk havoids
  have hrange := hreads.range h.begins.ne_nil
  cases h with
  | mk hp hb hc =>
    cases hb with
    | mk hw hb =>
      obtain ⟨c₃, hhead, hcs⟩ := hreads.split
      obtain ⟨c₁, hps, hstep⟩ := hhead.split
      obtain ⟨c₂, hws, hbs⟩ := hstep.split
      have hposp := length_pos_of_begins hp.begins
      simp only [List.length_append] at hk
      rw [Surface.arm]
      refine bind_eq_ok.mpr ⟨_, pattern_complete n hps hp (by omega) (hw.avoids hws (by decide)), ?_⟩
      refine bind_eq_ok.mpr ⟨_, hw.expect hws,
        bind_eq_ok.mpr ⟨_, ih.block hbs hb (by omega) (fun _ h => by cases h), ?_⟩⟩
      simp only [hc.optional hcs (havoids "," List.mem_cons_self), hrange]
      rfl

theorem declare_succ {c c' : Cursor} {ls ms ns ts es ss : List Token} {m : Bool} {x : String} {ty : Option Ty}
    {e : Option Expr} (hreads : c.Reads (ls ++ ms ++ ns ++ ts ++ es ++ ss) c') (hl : Fixed "let" ls)
    (hm : Flag "mut" ms m) (hn : Spelling .name ns x) (ht : Maybe (After ":" Ty.Derives) ts ty)
    (he : Maybe (After "=" (Expr.Derives .disjunction)) es e) (hs : Fixed ";" ss)
    (hk : 16 * (ls ++ ms ++ ns ++ ts ++ es ++ ss).length ≤ n + 1) :
    Surface.stmt (n + 1) c = .ok (.declare x ty e (.ofTokens (ls ++ ms ++ ns ++ ts ++ es ++ ss)), c') := by
  have hrange := hreads.range (List.append_ne_nil_of_right_ne_nil _ hs.ne_nil)
  obtain ⟨c₅, hhead, hss⟩ := hreads.split
  obtain ⟨c₄, hhead, hes⟩ := hhead.split
  obtain ⟨c₃, hhead, hts⟩ := hhead.split
  obtain ⟨c₂, hhead, hns⟩ := hhead.split
  obtain ⟨c₁, hls, hms⟩ := hhead.split
  have hposl := List.length_pos_iff.mpr hl.ne_nil
  simp only [List.length_append] at hk
  have hmut := hm.optional hms (hn.not_sees hns "mut")
  have hnext : c₄.Avoids [":", "<"] := by
    cases he with
    | none =>
      obtain rfl := hes.eq_of_nil
      exact hs.avoids hss (by decide)
    | some he => exact hes.avoids (.of_after he (List.mem_singleton_self _)) (by decide)
  have htype := typeAfter_complete ":" n hts ht (by omega) hnext
  rw [Surface.stmt, if_pos (hl.sees hls), hl.next hls, declaration]
  simp only [hmut]
  refine bind_eq_ok.mpr ⟨_, hn.word hns, bind_eq_ok.mpr ⟨_, htype, ?_⟩⟩
  dsimp only
  cases he with
  | none =>
    obtain rfl := hes.eq_of_nil
    have hequal : c₅.sees "=" = false := hs.avoids hss (L := ["="]) (by decide) _ List.mem_cons_self
    rw [if_neg (by simp [hequal])]
    refine bind_eq_ok.mpr ⟨_, hs.expect hss, ?_⟩
    rw [hrange]
    rfl
  | some he =>
    cases he with
    | mk hq he =>
      obtain ⟨c₆, hqs, hes⟩ := hes.split
      simp only [List.length_append] at hk
      rw [if_pos (hq.sees hqs), hq.next hqs]
      refine bind_eq_ok.mpr ⟨_, expr_complete n hes he (by omega) (hs.avoids hss (by decide)), ?_⟩
      refine bind_eq_ok.mpr ⟨_, hs.expect hss, ?_⟩
      dsimp only
      rw [hrange]
      rfl

/-- The words that start the other statements do not start an expression. -/
theorem stmt_of_expr {c c' : Cursor} {ts : List Token} (hts : c.Reads ts c') (h : Begins Level.disjunction.first ts) :
    Surface.stmt (n + 1) c = assignment n c := by
  have havoids : c.Avoids ["let", "if", "loop", "while", "break", "continue", "return", "match", "\x7b"] :=
    hts.avoids h (by decide)
  rw [Surface.stmt]
  simp only [havoids "let" (by decide), havoids "if" (by decide), havoids "loop" (by decide),
    havoids "while" (by decide), havoids "break" (by decide), havoids "continue" (by decide),
    havoids "return" (by decide), havoids "match" (by decide), havoids "\x7b" (by decide),
    Bool.false_eq_true, if_false]

theorem stmt_succ (ih : StmtComplete n) : Completes (Surface.stmt (n + 1)) Stmt.Derives ((n + 1) / 16) ["else"] := by
  intro c ts x c' hreads h hk havoids
  have hrange := hreads.range h.begins.ne_nil
  cases h with
  | declare hl hm hn ht he hs => exact declare_succ hreads hl hm hn ht he hs (by omega)
  | assign ha hb hs =>
    cases hb with
    | mk hq hb =>
      obtain ⟨c₃, hhead, hss⟩ := hreads.split
      obtain ⟨c₁, has, hstep⟩ := hhead.split
      obtain ⟨c₂, hqs, hbs⟩ := hstep.split
      have hpos := List.length_pos_iff.mpr hq.ne_nil
      simp only [List.length_append] at hk
      rw [stmt_of_expr has ha.begins, assignment]
      refine bind_eq_ok.mpr ⟨_, expr_complete n has ha (by omega) (hq.avoids hqs (by decide)), ?_⟩
      simp only [hq.sees hqs, if_true, hq.next hqs]
      refine bind_eq_ok.mpr ⟨_, expr_complete n hbs hb (by omega) (hs.avoids hss (by decide)), ?_⟩
      refine bind_eq_ok.mpr ⟨_, hs.expect hss, ?_⟩
      dsimp only
      rw [hrange]
      rfl
  | eval he hs =>
    obtain ⟨c₁, hes, hss⟩ := hreads.split
    have hpos := List.length_pos_iff.mpr hs.ne_nil
    simp only [List.length_append] at hk
    have hequal : c₁.sees "=" = false := hs.avoids hss (L := ["="]) (by decide) _ List.mem_cons_self
    rw [stmt_of_expr hes he.begins, assignment]
    refine bind_eq_ok.mpr ⟨_, expr_complete n hes he (by omega) (hs.avoids hss (by decide)), ?_⟩
    simp only [hequal, Bool.false_eq_true, if_false]
    refine bind_eq_ok.mpr ⟨_, hs.expect hss, ?_⟩
    rw [hrange]
    rfl
  | branch h =>
    rw [Surface.stmt]
    simp only [h.begins.sees_iff hreads, String.reduceEq, decide_false, decide_true, Bool.false_eq_true, if_false,
      if_true]
    exact bind_eq_ok.mpr ⟨_, ih.branch hreads h (by omega) havoids, rfl⟩
  | loop h =>
    cases h with
    | mk hw h =>
      obtain ⟨c₁, hws, hts⟩ := hreads.split
      simp only [List.length_append] at hk
      have hsees := hw.sees_iff hws
      rw [Surface.stmt]
      simp only [hsees, hw.next hws, String.reduceEq, decide_false, decide_true, Bool.false_eq_true, if_false, if_true]
      refine bind_eq_ok.mpr ⟨_, ih.block hts h (by omega) (fun _ h => by cases h), ?_⟩
      dsimp only
      rw [hrange]
      rfl
  | whileLoop hc hb =>
    cases hc with
    | mk hw hc =>
      obtain ⟨c₂, hhead, hbs⟩ := hreads.split
      obtain ⟨c₁, hws, hcs⟩ := hhead.split
      have hpos := length_pos_of_begins hb.begins
      simp only [List.length_append] at hk
      rw [Surface.stmt]
      simp only [hw.sees_iff hws, hw.next hws, String.reduceEq, decide_false, decide_true, Bool.false_eq_true,
        if_false, if_true]
      refine bind_eq_ok.mpr ⟨_, expr_complete n hcs hc (by omega) (hbs.avoids hb.begins (by decide)), ?_⟩
      refine bind_eq_ok.mpr ⟨_, ih.block hbs hb (by omega) (fun _ h => by cases h), ?_⟩
      dsimp only
      rw [hrange]
      rfl
  | breakLoop hb hs | continueLoop hb hs =>
    obtain ⟨c₁, hbs, hss⟩ := hreads.split
    rw [Surface.stmt]
    simp only [hb.sees_iff hbs, hb.next hbs, String.reduceEq, decide_false, decide_true, Bool.false_eq_true, if_false,
      if_true]
    refine bind_eq_ok.mpr ⟨_, hs.expect hss, ?_⟩
    rw [hrange]
    rfl
  | ret hr he hs =>
    obtain ⟨c₂, hhead, hss⟩ := hreads.split
    obtain ⟨c₁, hrs, hes⟩ := hhead.split
    have hpos := List.length_pos_iff.mpr hr.ne_nil
    simp only [List.length_append] at hk
    rw [Surface.stmt]
    simp only [hr.sees_iff hrs, hr.next hrs, String.reduceEq, decide_false, decide_true, Bool.false_eq_true, if_false,
      if_true, returning]
    cases he with
    | none =>
      obtain rfl := hes.eq_of_nil
      rw [if_pos (hs.sees hss), hs.next hss, hrange]
      rfl
    | some he =>
      have hsemi : c₁.sees ";" = false := hes.avoids (L := [";"]) he.begins (by decide) _ List.mem_cons_self
      rw [if_neg (by simp [hsemi])]
      refine bind_eq_ok.mpr ⟨_, expr_complete n hes he (by omega) (hs.avoids hss (by decide)), ?_⟩
      refine bind_eq_ok.mpr ⟨_, hs.expect hss, ?_⟩
      dsimp only
      rw [hrange]
      rfl
  | select hm ha =>
    cases hm with
    | mk hw he =>
      cases ha with
      | mk hl ha hr =>
        obtain ⟨c₂, hhead, hbody⟩ := hreads.split
        obtain ⟨c₁, hws, hes⟩ := hhead.split
        obtain ⟨c₄, hbody, hright⟩ := hbody.split
        obtain ⟨c₃, hleft, has⟩ := hbody.split
        have hpos := List.length_pos_iff.mpr hw.ne_nil
        simp only [List.length_append] at hk
        have harms := itemsUntil_complete (n := n) ih.arm Arm.Derives.begins (by decide) (by decide) (by decide) has ha
          hr hright (by omega) (by omega)
        rw [Surface.stmt]
        simp only [hw.sees_iff hws, hw.next hws, String.reduceEq, decide_false, decide_true, Bool.false_eq_true,
          if_false, if_true]
        refine bind_eq_ok.mpr ⟨_, expr_complete n hes he (by omega) (hl.avoids hleft (by decide)), ?_⟩
        refine bind_eq_ok.mpr ⟨_, hl.expect hleft, bind_eq_ok.mpr ⟨_, harms, ?_⟩⟩
        dsimp only
        rw [hr.next hright, hrange]
        rfl
  | block h =>
    rw [Surface.stmt]
    simp only [h.begins.sees_iff hreads, String.reduceEq, decide_false, decide_true, Bool.false_eq_true, if_false,
      if_true]
    exact bind_eq_ok.mpr ⟨_, ih.block hreads h (by omega) (fun _ h => by cases h), rfl⟩

end StmtComplete

/-- A phrase of a statement is read with a fuel of sixteen for each of its tokens. -/
theorem stmtComplete (n : Nat) : StmtComplete n := by
  induction n with
  | zero =>
    refine ⟨fun c ts x c' _ h hk _ => ?_, fun c ts x c' _ h hk _ => ?_, fun c ts x c' _ h hk _ => ?_, nofun,
      fun c ts x c' _ h hk _ => ?_⟩
    · exact absurd (length_pos_of_begins h.begins) (by omega)
    · exact absurd (length_pos_of_begins h.begins) (by omega)
    · exact absurd (length_pos_of_begins h.begins) (by omega)
    · exact absurd (length_pos_of_begins h.begins) (by omega)
  | succ n ih => exact ⟨ih.stmt_succ, ih.block_succ, ih.branch_succ, fun _ => ih.alternative_succ, ih.arm_succ⟩

theorem bounds_complete (n : Nat) {c c' : Cursor} {ts : List Token} {rs : List String} (hreads : c.Reads ts c')
    (h : Many (After ":" (Spelling .region)) ts rs) (hk : ts.length < n) (havoids : c'.sees ":" = false) :
    bounds n c = .ok (rs, c') := by
  induction n generalizing c ts rs with
  | zero => omega
  | succ n ih =>
    cases h with
    | nil =>
      obtain rfl := hreads.eq_of_nil
      rw [bounds, if_neg (by simp [havoids])]
      rfl
    | cons h hrest =>
      cases h with
      | mk hc h =>
        obtain ⟨c₂, hhead, hus⟩ := hreads.split
        obtain ⟨c₁, hcs, hrs⟩ := hhead.split
        have hpos := List.length_pos_iff.mpr hc.ne_nil
        simp only [List.length_append] at hk
        rw [bounds, if_pos (hc.sees hcs), hc.next hcs]
        exact bind_eq_ok.mpr ⟨_, h.word hrs, bind_eq_ok.mpr ⟨_, ih hus hrest (by omega), rfl⟩⟩

theorem RegionDecl.Derives.begins {ts : List Token} {x : RegionDecl} (h : RegionDecl.Derives ts x) :
    Begins [.region] ts := by
  cases h with
  | mk h _ => exact (Begins.of_spelling h List.mem_cons_self).append _

theorem regionDecl_complete (n : Nat) : Completes (regionDecl n) RegionDecl.Derives n [":"] := by
  intro c ts x c' hreads h hk havoids
  cases h with
  | mk h hb =>
    obtain ⟨c₁, hrs, hbs⟩ := hreads.split
    have hpos := List.length_pos_iff.mpr h.ne_nil
    simp only [List.length_append] at hk
    have hbounds := bounds_complete n hbs hb (by omega) (havoids ":" List.mem_cons_self)
    exact bind_eq_ok.mpr ⟨_, h.word hrs, bind_eq_ok.mpr ⟨_, hbounds, rfl⟩⟩

theorem regionParams_complete (n : Nat) : Completes (regionParams n) RegionParams n ["<"] :=
  enclosedList_complete (regionDecl_complete n) RegionDecl.Derives.begins (by decide) (by decide) (Nat.le_refl n)

theorem TypedName.Derives.begins {ts : List Token} {x : TypedName} (h : TypedName.Derives ts x) :
    Begins [.name] ts := by
  cases h with
  | mk h _ => exact (Begins.of_spelling h List.mem_cons_self).append _

theorem typedName_complete (n : Nat) : Completes (typedName n) TypedName.Derives n ["<"] := by
  intro c ts x c' hreads h hk havoids
  have hrange := hreads.range h.begins.ne_nil
  cases h with
  | mk hn ht =>
    cases ht with
    | mk hc ht =>
      obtain ⟨c₁, hns, hstep⟩ := hreads.split
      obtain ⟨c₂, hcs, hts⟩ := hstep.split
      simp only [List.length_append] at hk
      rw [typedName]
      refine bind_eq_ok.mpr ⟨_, hn.word hns, bind_eq_ok.mpr ⟨_, hc.expect hcs, ?_⟩⟩
      refine bind_eq_ok.mpr ⟨_, type_complete n hts ht (by omega) havoids, ?_⟩
      dsimp only
      rw [hrange]
      rfl

theorem VariantDecl.Derives.begins {ts : List Token} {x : VariantDecl} (h : VariantDecl.Derives ts x) :
    Begins [.name] ts := by
  cases h with
  | mk h _ => exact (Begins.of_spelling h List.mem_cons_self).append _

theorem variantDecl_complete (n : Nat) : Completes (variantDecl n) VariantDecl.Derives n ["("] := by
  intro c ts x c' hreads h hk havoids
  cases h with
  | mk hn hp =>
    obtain ⟨c₁, hns, hps⟩ := hreads.split
    simp only [List.length_append] at hk
    have hpayload := enclosedList_complete (type_complete n) Ty.Derives.begins (by decide) (by decide) (Nat.le_refl n)
      hps hp (by omega) havoids
    exact bind_eq_ok.mpr ⟨_, hn.word hns, bind_eq_ok.mpr ⟨_, hpayload, rfl⟩⟩

theorem header_complete (n : Nat) : Completes (header n) Header.Derives n ["->", "<"] := by
  intro c ts x c' hreads h hk havoids
  cases h with
  | mk hn hr hp ht =>
    have hrange := hreads.range (ne_nil_left (ne_nil_left (ne_nil_left hn.ne_nil)))
    cases hp with
    | mk hl hp he =>
      obtain ⟨c₃, hhead, hts⟩ := hreads.split
      obtain ⟨c₂, hhead, hps⟩ := hhead.split
      obtain ⟨c₁, hns, hrs⟩ := hhead.split
      obtain ⟨c₅, hps, hes⟩ := hps.split
      obtain ⟨c₄, hleft, hps⟩ := hps.split
      simp only [List.length_append] at hk
      rw [header]
      refine bind_eq_ok.mpr ⟨_, hn.word hns, ?_⟩
      refine bind_eq_ok.mpr ⟨_, regionParams_complete n hrs hr (by omega) (hl.avoids hleft (by decide)), ?_⟩
      refine bind_eq_ok.mpr ⟨_, hl.expect hleft, ?_⟩
      have hparams := closedList_complete (typedName_complete n) TypedName.Derives.begins (by decide) (by decide)
        (by decide) (Nat.le_refl n) hps hp he hes (by omega)
      refine bind_eq_ok.mpr ⟨_, hparams, ?_⟩
      refine bind_eq_ok.mpr ⟨_, typeAfter_complete "->" n hts ht (by omega) havoids, ?_⟩
      dsimp only
      rw [hrange]
      rfl

theorem struct_complete {n : Nat} {copy : Bool} {start : Position} {c c' : Cursor} {ns rs fs : List Token}
    {x : String} {regions : List RegionDecl} {fields : List TypedName} (hreads : c.Reads (ns ++ rs ++ fs) c')
    (hn : After "struct" (Spelling .name) ns x) (hr : RegionParams rs regions)
    (hf : Enclosed "\x7b" "\x7d" (OrEmpty (CommasEnd TypedName.Derives)) fs fields)
    (hk : (ns ++ rs ++ fs).length ≤ n) :
    layout n copy start c = .ok (.struct copy x fields (c'.since start), c') := by
  cases hn with
  | mk hw hn =>
    cases hf with
    | mk hl hf he =>
      obtain ⟨c₃, hhead, hbody⟩ := hreads.split
      obtain ⟨c₂, hhead, hrs⟩ := hhead.split
      obtain ⟨c₁, hws, hns⟩ := hhead.split
      obtain ⟨c₅, hbody, hright⟩ := hbody.split
      obtain ⟨c₄, hleft, hfs⟩ := hbody.split
      have hposw := List.length_pos_iff.mpr hw.ne_nil
      simp only [List.length_append] at hk
      have hfields := commaListUntil_complete (typedName_complete n) TypedName.Derives.begins (by decide) (by decide)
        (by decide) (by decide) hfs hf he hright (by omega) (n := n) (by omega)
      rw [layout, if_pos (hw.sees hws), hw.next hws]
      refine bind_eq_ok.mpr ⟨_, hn.word hns, ?_⟩
      refine bind_eq_ok.mpr ⟨_, regionParams_complete n hrs hr (by omega) (hl.avoids hleft (by decide)), ?_⟩
      exact bind_eq_ok.mpr ⟨_, hl.expect hleft, bind_eq_ok.mpr ⟨_, hfields, rfl⟩⟩

theorem enum_complete {n : Nat} {copy : Bool} {start : Position} {c c' : Cursor} {ns rs vs : List Token}
    {x : String} {regions : List RegionDecl} {variants : List VariantDecl} (hreads : c.Reads (ns ++ rs ++ vs) c')
    (hn : After "enum" (Spelling .name) ns x) (hr : RegionParams rs regions)
    (hv : Enclosed "\x7b" "\x7d" (OrEmpty (CommasEnd VariantDecl.Derives)) vs variants)
    (hk : (ns ++ rs ++ vs).length ≤ n) :
    layout n copy start c = .ok (.enum copy x variants (c'.since start), c') := by
  cases hn with
  | mk hw hn =>
    cases hv with
    | mk hl hv he =>
      obtain ⟨c₃, hhead, hbody⟩ := hreads.split
      obtain ⟨c₂, hhead, hrs⟩ := hhead.split
      obtain ⟨c₁, hws, hns⟩ := hhead.split
      obtain ⟨c₅, hbody, hright⟩ := hbody.split
      obtain ⟨c₄, hleft, hvs⟩ := hbody.split
      have hposw := List.length_pos_iff.mpr hw.ne_nil
      simp only [List.length_append] at hk
      have hvariants := commaListUntil_complete (variantDecl_complete n) VariantDecl.Derives.begins (by decide)
        (by decide) (by decide) (by decide) hvs hv he hright (by omega) (n := n) (by omega)
      rw [layout, if_neg (by simp [hw.sees_iff hws]), if_pos (hw.sees hws), hw.next hws]
      refine bind_eq_ok.mpr ⟨_, hn.word hns, ?_⟩
      refine bind_eq_ok.mpr ⟨_, regionParams_complete n hrs hr (by omega) (hl.avoids hleft (by decide)), ?_⟩
      exact bind_eq_ok.mpr ⟨_, hl.expect hleft, bind_eq_ok.mpr ⟨_, hvariants, rfl⟩⟩

/-- An item that begins with none of the other words is a layout, copied or not. -/
theorem item_eq_layout {n : Nat} {copy : Bool} {c c₁ : Cursor} {cs : List Token} (hcs : c.Reads cs c₁)
    (hc : Flag "copy" cs copy) (havoids : c₁.Avoids ["fn", "extern", "copy"]) :
    item n c = layout n copy c.here c₁ := by
  rw [item]
  cases hc with
  | absent =>
    obtain rfl := hcs.eq_of_nil
    rw [if_neg (by simp [havoids "fn" (by simp)]), if_neg (by simp [havoids "extern" (by simp)]),
      if_neg (by simp [havoids "copy" (by simp)])]
  | present hc =>
    rw [if_neg (by simp [hc.sees_iff hcs]), if_neg (by simp [hc.sees_iff hcs]), if_pos (hc.sees hcs), hc.next hcs]

theorem Item.Derives.begins {ts : List Token} {x : Item} (h : Item.Derives ts x) :
    Begins [.fixed "copy", .fixed "struct", .fixed "enum", .fixed "fn", .fixed "extern"] ts := by
  cases h with
  | struct hc hn _ _ =>
    rw [List.append_assoc, List.append_assoc]
    exact (hc.begins ((Begins.of_after hn List.mem_cons_self).append _)).mono
      (F := [.fixed "copy", .fixed "struct"]) (by decide)
  | enum hc hn _ _ =>
    rw [List.append_assoc, List.append_assoc]
    exact (hc.begins ((Begins.of_after hn List.mem_cons_self).append _)).mono
      (F := [.fixed "copy", .fixed "enum"]) (by decide)
  | function hh _ => exact (Begins.of_after hh (by decide)).append _
  | external he _ _ => exact ((Begins.of_fixed he (by decide)).append _).append _

private theorem append_assoc₃ {α : Type} (as bs cs ds : List α) : as ++ bs ++ cs ++ ds = as ++ (bs ++ cs ++ ds) := by
  simp only [List.append_assoc]

theorem item_complete (n : Nat) : Completes (item n) Item.Derives (n / 16) [] := by
  intro c ts x c' hreads h hk havoids
  have hrange := hreads.range h.begins.ne_nil
  cases h with
  | struct hc hn hr hf =>
    obtain ⟨c₁, hcs, hrest⟩ := (append_assoc₃ _ _ _ _ ▸ hreads).split
    have hword := Begins.of_after hn (List.mem_singleton_self _)
    rw [item_eq_layout hcs hc (hrest.avoids ((hword.append _).append _) (by decide)), ← hrange]
    exact struct_complete hrest hn hr hf (by simp only [List.length_append] at hk ⊢; omega)
  | enum hc hn hr hv =>
    obtain ⟨c₁, hcs, hrest⟩ := (append_assoc₃ _ _ _ _ ▸ hreads).split
    have hword := Begins.of_after hn (List.mem_singleton_self _)
    rw [item_eq_layout hcs hc (hrest.avoids ((hword.append _).append _) (by decide)), ← hrange]
    exact enum_complete hrest hn hr hv (by simp only [List.length_append] at hk ⊢; omega)
  | function hh hb =>
    cases hh with
    | mk hw hh =>
      obtain ⟨c₂, hhead, hbs⟩ := hreads.split
      obtain ⟨c₁, hws, hhs⟩ := hhead.split
      simp only [List.length_append] at hk
      have hheader := header_complete n hhs hh (by omega) (hbs.avoids hb.begins (by decide))
      rw [item, if_pos (hw.sees hws), hw.next hws]
      exact bind_eq_ok.mpr ⟨_, hheader,
        bind_eq_ok.mpr ⟨_, (stmtComplete n).block hbs hb (by omega) (Cursor.avoids_nil _), rfl⟩⟩
  | external he hh hs =>
    cases hh with
    | mk hw hh =>
      obtain ⟨c₃, hhead, hss⟩ := hreads.split
      obtain ⟨c₁, hes, hhead⟩ := hhead.split
      obtain ⟨c₂, hws, hhs⟩ := hhead.split
      simp only [List.length_append] at hk
      have hheader := header_complete n hhs hh (by omega) (hs.avoids hss (by decide))
      rw [item, if_neg (by simp [he.sees_iff hes]), if_pos (he.sees hes), he.next hes]
      refine bind_eq_ok.mpr ⟨_, hw.expect hws, bind_eq_ok.mpr ⟨_, hheader, ?_⟩⟩
      exact bind_eq_ok.mpr ⟨_, hs.expect hss, rfl⟩

theorem items_complete {fuel n : Nat} {c c' : Cursor} {ts : List Token} {xs : List Item} (hreads : c.Reads ts c')
    (hend : c'.rest = []) (h : ProgramText ts xs) (hfuel : ts.length ≤ fuel / 16) (hn : ts.length < n) :
    items fuel n c = .ok xs := by
  induction n generalizing c ts xs with
  | zero => omega
  | succ n ih =>
    cases h with
    | nil =>
      obtain rfl := hreads.eq_of_nil
      rw [items, if_pos (by rw [hend]; rfl)]
      rfl
    | cons h hrest =>
      obtain ⟨c₁, hitem, hus⟩ := hreads.split
      have hpos := length_pos_of_begins h.begins
      simp only [List.length_append] at hfuel hn
      rw [items, if_neg (by simp [hreads.rest, h.begins.ne_nil])]
      refine bind_eq_ok.mpr ⟨_, item_complete fuel hitem h (by omega) (Cursor.avoids_nil _), ?_⟩
      exact bind_eq_ok.mpr ⟨_, ih hus hrest (by omega) (by omega), rfl⟩

/-- The tokens of a program are parsed just as the grammar derives it. -/
theorem parse_eq_ok_iff {ts : List Token} {xs : List Item} : parse ts = .ok xs ↔ ProgramText ts xs :=
  ⟨derives_of_parse, fun h =>
    have hreads : Cursor.Reads ⟨ts, {}⟩ ts ⟨[], ts.getLast?.elim {} Token.stop⟩ := ⟨(List.append_nil ts).symm, rfl⟩
    items_complete hreads rfl h (by simp only [depthBound]; omega) (Nat.lt_succ_self _)⟩

end Ownership.Surface

namespace Ownership

open Surface

/-- The items of a text are derived from the tokens that it splits into. -/
theorem programText_of_readItems {text : String} {file : Option String} {items : List Item}
    (h : readItems text file = .ok items) :
    ∃ tokens, Splits {} text.toList tokens ∧ ProgramText tokens items := by
  unfold readItems at h
  dsimp only at h
  split at h
  case h_1 parsed hparse hending =>
    obtain rfl := Except.ok.inj h
    refine ⟨(scan text).tokens, scan_eq_iff.mp ?_, derives_of_parse hparse⟩
    rw [← hending]
  all_goals cases h

/-- A text is read just as the grammar derives the tokens that it splits into. -/
theorem readItems_eq_ok_iff (text : String) (file : Option String) (items : List Item) :
    readItems text file = .ok items ↔ ∃ tokens, Splits {} text.toList tokens ∧ ProgramText tokens items := by
  refine ⟨programText_of_readItems, ?_⟩
  rintro ⟨tokens, hsplits, hderives⟩
  simp only [readItems, scan_eq_iff.mpr hsplits, parse_eq_ok_iff.mpr hderives]

end Ownership
