import Formula.Expr.Constant
import Formula.Proofs.EscapeSpellings
import Formula.Proofs.Lexing
import Mathlib.Data.List.Forall2

namespace Formula

open Lexeme

def escapeChar (c : Char) : List Char :=
  if c = '"' then ['\\', '"']
  else if c = '\\' then ['\\', '\\']
  else if c = '\n' then ['\\', 'n']
  else if c = '\r' then ['\\', 'r']
  else [c]

def escapeText (cs : List Char) : List Char := cs.flatMap escapeChar

/-- An escaped text is read on to the quote behind it. -/
theorem closeQuote_escaped (cs rest : List Char) :
    ∃ n, closeQuote '"' .plain (escapeText cs ++ '"' :: rest) = some (n, escapeText cs, rest) := by
  induction cs with
  | nil => exact ⟨0, by simp [escapeText, closeQuote]⟩
  | cons c cs ih =>
    obtain ⟨n, ih⟩ := ih
    refine ⟨n + 1, ?_⟩
    have hsplit : escapeText (c :: cs) = escapeChar c ++ escapeText cs := List.flatMap_cons
    rw [hsplit, List.append_assoc, escapeChar]
    split_ifs with hquote hslash hline hreturn
    · simp [closeQuote, endsLine, isSimpleEscape, ih]
    · simp [closeQuote, endsLine, isSimpleEscape, ih]
    · simp [closeQuote, endsLine, isSimpleEscape, ih]
    · simp [closeQuote, endsLine, isSimpleEscape, ih]
    · simp [closeQuote, endsLine, hquote, hslash, hline, hreturn, ih]

/-- A string is read whatever stands behind it. -/
theorem string_read (cs rest : List Char) :
    ReadBefore (.atom (.string (escapeText cs))) rest := by
  obtain ⟨n, hclose⟩ := closeQuote_escaped cs rest
  have hstart : startsName '"' = false := by decide +kernel
  have htext : (Lexeme.atom (.string (escapeText cs))).text ++ rest =
      '"' :: (escapeText cs ++ '"' :: rest) := by simp [Lexeme.text, Atom.text]
  rw [ReadBefore, htext]
  have hatom : atom? ('"' :: (escapeText cs ++ '"' :: rest)) =
      some (.string (escapeText cs), rest) := by
    simp [atom?, name?, hstart, float?, decimals?, int?, marked?, oldOctal?, plain?, quoted?, hclose]
  exact ⟨rfl, first_atom hatom⟩

theorem escapeChar_spelling (c : Char) : StringSpelling c (escapeChar c) := by
  rw [escapeChar]
  split_ifs with hquote hslash hline hreturn
  · subst hquote
    exact .char .quote
  · subst hslash
    exact .char (.letter (by decide))
  · subst hline
    exact .char (.letter (by decide))
  · subst hreturn
    exact .char (.letter (by decide))
  · exact .char (.itself hslash)

/-- Decoding gives an escaped text back. -/
theorem decode_escaped (cs : List Char) : decodeString (escapeText cs) = .ok cs := by
  have hspelled : List.Forall₂ StringSpelling cs (cs.map escapeChar) :=
    List.forall₂_map_right_iff.mpr (List.forall₂_same.mpr fun c _ => escapeChar_spelling c)
  exact stringSpelling_decoded hspelled

end Formula
