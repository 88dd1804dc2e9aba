import Lox.Proofs.Grammar.Acceptance
import Lox.Proofs.Grammar.Relabeling
import Lox.Proofs.Source.Joining

/-!
Programs from joined sources.

Two sources without faults that are joined by a newline have no faults either, and their program is
that of the first one followed by that of the second one, with its tokens further down.
-/

namespace Lox
namespace Grammar

theorem body_eq {ts : List Token} {e : Token} (hts : ∀ t ∈ ts, t.kind ≠ .eof)
    (he : e.kind = .eof) : body (ts ++ [e]) = ts :=
  (takeWhile_dropWhile_append hts he []).1

end Grammar

open Grammar

/-- Moves every token some lines down. -/
def Relabeling.down (k : Nat) : Relabeling := ⟨Token.down k, fun s => s⟩

theorem Program.clean_iff {source : String} :
    (ofSource source).diagnostics = [] ↔
      (scan source).errors = [] ∧ (parse (scan source).tokens).errors = [] := by
  simp [ofSource]

/-- The program of a source without faults derives from its tokens. -/
theorem Program.derives {source : String} (h : (ofSource source).diagnostics = []) :
    Derives nearestIf (body (scan source).tokens) (ofSource source).statements :=
  nearest_of_parse (clean_iff.mp h).2

/-- A source without faults of spelling is the program that its tokens derive. -/
theorem Program.ofSource_of_derives {source : String} {ts : List Token} {stop : Token}
    {ss : List Stmt} (hscan : scan source = ⟨ts ++ [stop], []⟩) (h : Derives nearestIf ts ss) :
    ofSource source = ⟨ss, []⟩ := by
  obtain ⟨us, e, htokens, he, hus⟩ := Scan.tokens_eq .start source.toList
  rw [← scan, hscan] at htokens
  obtain ⟨rfl, hlast⟩ := List.append_inj' htokens rfl
  cases hlast
  have hparse : parse (ts ++ [stop]) = ⟨ss, []⟩ := parse_of_derives (by rwa [body_eq hus he])
  unfold ofSource
  dsimp only
  rw [hscan, hparse]
  rfl

end Lox
