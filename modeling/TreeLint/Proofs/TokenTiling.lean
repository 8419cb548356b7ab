import TreeLint.Proofs.SourceText
import TreeLint.Token

/-!
# Tokens cover the source

* `tiled_piecesFrom`: the pieces of a text are not empty, and each begins where the one before it ends;
* `cuts_tokenize`: so there are places in the text at which it is cut into tokens; offsets and texts of the tokens are
  those of the parts between the cuts, and a token is the piece that starts at its cut.
-/

namespace TreeLint

open List

variable {scanners : List Scanner} {subject : Array Glyph} {position first last : Nat} {pieces : List Piece}

/-! ## Pieces end inside the text -/

private theorem Scanner.le_of_reach? {scanner : Scanner} {stop : Nat}
    (h : scanner.reach? subject position = some stop) :
    stop ≤ subject.size := by
  unfold Scanner.reach? at h
  split at h
  · split at h
    · simp only [Option.some.injEq] at h
      simp_all
    · cases h
  · cases h

private theorem mem_of_bestFrom {champion : Option Candidate} {winner : Candidate}
    (h : bestFrom subject position champion scanners = some winner) :
    champion = some winner ∨
      ∃ scanner ∈ scanners, winner.rule = scanner.rule ∧ scanner.reach? subject position = some winner.stop := by
  induction scanners generalizing champion with
  | nil => exact .inl h
  | cons scanner scanners ih =>
    -- a champion of the rest is the old one or the challenger
    have hl : (∃ other ∈ scanners, winner.rule = other.rule ∧ other.reach? subject position = some winner.stop) →
        ∃ other ∈ scanner :: scanners, winner.rule = other.rule ∧ other.reach? subject position = some winner.stop := by
      rintro ⟨other, ho, hr⟩
      exact ⟨other, mem_cons_of_mem _ ho, hr⟩
    unfold bestFrom at h
    cases hrc : scanner.reach? subject position with
    | none =>
      rw [hrc] at h
      exact (ih h).imp_right hl
    | some stop =>
      rw [hrc] at h
      have hh : winner = ⟨scanner.rule, stop⟩ → ∃ other ∈ scanner :: scanners, winner.rule = other.rule ∧
            other.reach? subject position = some winner.stop := by
        rintro rfl
        exact ⟨scanner, mem_cons_self, rfl, hrc⟩
      cases champion with
      | none =>
        rcases ih h with hw | hw
        · exact .inr (hh (Option.some.inj hw).symm)
        · exact .inr (hl hw)
      | some current =>
        rcases ih h with hw | hw
        · split at hw
          · exact .inr (hh (Option.some.inj hw).symm)
          · exact .inl hw
        · exact .inr (hl hw)

/-- The best candidate is what one of the scanners reaches. -/
theorem exists_of_best? {winner : Candidate} (h : best? scanners subject position = some winner) :
    ∃ scanner ∈ scanners, winner.rule = scanner.rule ∧ scanner.reach? subject position = some winner.stop := by
  rcases mem_of_bestFrom h with hn | hw
  · cases hn
  · exact hw

theorem runEnd_le {blank : Bool} (h : position ≤ subject.size) :
    runEnd scanners subject blank position ≤ subject.size := by
  fun_induction runEnd with
  | case1 position hlt _ ih => exact ih hlt
  | case2 | case3 => exact h

private theorem stop_pieceAt_le (h : position < subject.size) :
    (pieceAt scanners subject position).stop ≤ subject.size := by
  unfold pieceAt
  split
  next winner hw =>
    obtain ⟨scanner, _, _, hr⟩ := exists_of_best? hw
    exact scanner.le_of_reach? hr
  · exact runEnd_le h

private theorem start_pieceAt : (pieceAt scanners subject position).start = position := by
  unfold pieceAt
  split <;> rfl

/-! ## Pieces in a row -/

/-- Pieces that are not empty and follow each other from one position to another. -/
inductive Piece.Tiled : Nat → Nat → List Piece → Prop
  | nil {position : Nat} : Tiled position position []
  | cons {piece : Piece} {pieces : List Piece} {last : Nat} : piece.start < piece.stop → Tiled piece.stop last pieces →
      Tiled piece.start last (piece :: pieces)

/-- The pieces lie side by side from the position to the end. -/
theorem tiled_piecesFrom (h : position ≤ subject.size) :
    Piece.Tiled position subject.size (piecesFrom scanners subject position) := by
  fun_induction piecesFrom with
  | case1 position hlt ih =>
    have hp := Piece.Tiled.cons (by rw [start_pieceAt]; exact lt_stop_pieceAt ..) (ih (stop_pieceAt_le hlt))
    rwa [start_pieceAt] at hp
  | case2 position hge =>
    obtain rfl : position = subject.size := by omega
    exact .nil

/-- A piece depends on its start alone, not on the pieces before it. -/
theorem eq_pieceAt_of_mem {piece : Piece} (h : piece ∈ piecesFrom scanners subject position) :
    piece = pieceAt scanners subject piece.start := by
  fun_induction piecesFrom with
  | case1 position _ ih =>
    rcases mem_cons.1 h with rfl | h
    · rw [start_pieceAt]
    · exact ih h
  | case2 => cases h

/-- Where the piece with a number begins; after the last one, where all end. -/
private def cutAt (last : Nat) (pieces : List Piece) (k : Nat) : Nat :=
  (pieces[k]?.map (·.start)).getD last

private theorem Piece.Tiled.cutAt_zero (h : Piece.Tiled first last pieces) : cutAt last pieces 0 = first := by
  cases h <;> rfl

private theorem cutAt_length (last : Nat) (pieces : List Piece) : cutAt last pieces pieces.length = last := by
  rw [cutAt, getElem?_eq_none (Nat.le_refl _)]
  rfl

private theorem Piece.Tiled.cutAt_eq (h : Piece.Tiled first last pieces) {k : Nat} {piece : Piece}
    (hp : pieces[k]? = some piece) :
    cutAt last pieces k = piece.start ∧ cutAt last pieces (k + 1) = piece.stop ∧ piece.start < piece.stop := by
  induction h generalizing k with
  | nil => cases hp
  | cons hlt ht ih =>
    cases k with
    | zero =>
      cases hp
      exact ⟨rfl, ht.cutAt_zero, hlt⟩
    | succ k => exact ih hp

/-! ## Tokens -/

/-- A token made of a piece; lines and columns are left out. -/
structure Token.IsOf (grammar : Grammar) (source : Source) (piece : Piece) (token : Token) : Prop where
  kind_eq : token.kind = piece.kind
  kindId_eq : token.kindId = grammar.kindId piece.kind
  trivia_eq : token.trivia = piece.trivia
  start_eq : token.start = source.byteAt piece.start
  stop_eq : token.stop = source.byteAt piece.stop
  text_eq : token.text = (source.glyphs.extract piece.start piece.stop).toList

variable {g : Grammar} {src : Source}

private theorem length_tokensFrom (line column : Nat) (pieces : List Piece) :
    (tokensFrom g src line column pieces).length = pieces.length := by
  induction pieces generalizing line column with
  | nil => rfl
  | cons piece pieces ih => rw [tokensFrom, length_cons, ih, length_cons]

theorem exists_piece_of_tokensFrom {line column k : Nat} {token : Token}
    (h : (tokensFrom g src line column pieces)[k]? = some token) :
    ∃ piece, pieces[k]? = some piece ∧ token.IsOf g src piece := by
  induction pieces generalizing line column k with
  | nil => cases h
  | cons piece pieces ih =>
    cases k with
    | zero =>
      cases h
      exact ⟨piece, rfl, rfl, rfl, rfl, rfl, rfl, rfl⟩
    | succ k => exact ih h

/-- Places at which a text is cut into tokens. -/
structure Cuts (source : Source) (tokens : List Token) (cut : Nat → Nat) : Prop where
  zero : cut 0 = 0
  length : cut tokens.length = source.text.length
  lt : ∀ {k : Nat}, k < tokens.length → cut k < cut (k + 1)
  start_eq : ∀ {k : Nat} {token : Token}, tokens[k]? = some token → token.start = source.byteAt (cut k)
  stop_eq : ∀ {k : Nat} {token : Token}, tokens[k]? = some token → token.stop = source.byteAt (cut (k + 1))
  text_eq : ∀ {k : Nat} {token : Token}, tokens[k]? = some token →
    token.text = (source.text.drop (cut k)).take (cut (k + 1) - cut k)

theorem Cuts.le {tokens : List Token} {cut : Nat → Nat} (h : Cuts src tokens cut) (hle : first ≤ last)
    (hl : last ≤ tokens.length) : cut first ≤ cut last := by
  induction hle with
  | refl => exact Nat.le_refl _
  | step _ ih => exact Nat.le_trans (ih (Nat.le_of_succ_le hl)) (Nat.le_of_lt (h.lt hl))

/-- The tokens of a source lie between cuts, and each is that of the piece at its cut. -/
theorem cuts_tokenize (h : src.Encoded) (g : Grammar) :
    ∃ cut, Cuts src (tokenize g src) cut ∧ ∀ {k : Nat} {token : Token},
      (tokenize g src)[k]? = some token →
        token.IsOf g src (pieceAt g.scanners src.glyphs (cut k)) ∧
          (pieceAt g.scanners src.glyphs (cut k)).stop = cut (k + 1) := by
  have ht : Piece.Tiled 0 src.glyphs.size (piecesFrom g.scanners src.glyphs 0) :=
    tiled_piecesFrom (Nat.zero_le _)
  have hl : (tokenize g src).length = (piecesFrom g.scanners src.glyphs 0).length :=
    length_tokensFrom ..
  refine ⟨cutAt src.glyphs.size (piecesFrom g.scanners src.glyphs 0),
    ⟨ht.cutAt_zero, ?_, ?_, ?_, ?_, ?_⟩, ?_⟩
  · rw [hl, cutAt_length, h.glyphs_eq, size_toArray]
  · intro k hk
    rw [hl] at hk
    obtain ⟨hs, hst, hlt⟩ := ht.cutAt_eq (getElem?_eq_getElem hk)
    omega
  all_goals
    intro k token htk
    obtain ⟨piece, hp, hof⟩ := exists_piece_of_tokensFrom htk
    obtain ⟨hs, hst, -⟩ := ht.cutAt_eq hp
  · rw [hs, hof.start_eq]
  · rw [hst, hof.stop_eq]
  · rw [hs, hst, hof.text_eq, h.glyphs_eq, extract_toArray, extract_eq_take_drop]
  · rw [hs, hst, ← eq_pieceAt_of_mem (mem_of_getElem? hp)]
    exact ⟨hof, rfl⟩

end TreeLint
