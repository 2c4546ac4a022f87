import EZLanguage.Runtime.Utf8Laws
import EZLanguage.Support.Search

/-!
# Splitting, joining and replacing

`split` and `replace` look for the next place of their delimiter from an offset that they move behind the
delimiter or behind the replacement, which `replace` writes into the text it goes on searching. Both work
on bytes. An empty delimiter splits a text into its characters and is never replaced.
-/

namespace EZLanguage

namespace StringPieces

open Search Segments Utf8

/-- The loop of `split` from `start` on, and the piece behind it. -/
def splitFrom (str delim : CString) (hdelim : delim ≠ []) (start : Nat) : List CString :=
  match _h : find delim str start with
  | some stop => (str.drop start).take (stop - start) ::
      splitFrom str delim hdelim (stop + delim.length)
  | none => [str.drop start]
termination_by str.length - start
decreasing_by
  have hpos := List.length_pos_iff.mpr hdelim
  have hbounds := find_bounds _h
  omega

/-- The loop of `split` for an empty delimiter. -/
def splitChars (str : CString) (i : Nat) : List CString :=
  if i < str.length then (str.drop i).take (spanAt str i) :: splitChars str (i + spanAt str i)
  else []
termination_by str.length - i
decreasing_by
  have hpos := takenAt_pos str i
  rw [spanAt_eq_takenAt]
  omega

def split (str delim : CString) : List CString :=
  if hdelim : delim = [] then splitChars str 0 else splitFrom str delim hdelim 0

/-- The loop of `replace`, whose `from` and `to` are `source` and `target` here. -/
def replaceFrom (source target : CString) (hsource : source ≠ []) (s : CString) (pos : Nat) : CString :=
  match _h : find source s pos with
  | some i => replaceFrom source target hsource (s.take i ++ target ++ s.drop (i + source.length))
      (i + target.length)
  | none => s
termination_by s.length - pos
decreasing_by
  have hpos := List.length_pos_iff.mpr hsource
  have hbounds := find_bounds _h
  simp only [List.length_append, List.length_take, List.length_drop]
  omega

def replace (s source target : CString) : CString :=
  if hsource : source = [] then s else replaceFrom source target hsource s 0

/-- `join` on an array of strings. -/
def join (arr : List CString) (delim : CString) : CString := Search.join delim arr

/-! ### The loops cut into the pieces between the leftmost places -/

theorem splitFrom_eq {str delim : CString} (hdelim : delim ≠ []) (start : Nat)
    (hstart : start ≤ str.length) :
    splitFrom str delim hdelim start = pieces delim hdelim (str.drop start) := by
  fun_induction splitFrom str delim hdelim start with
  | case1 start stop hfind ih =>
      have hroom := (find_bounds hfind).2
      have hnext := ih hroom
      rw [find, if_pos hstart, Option.map_eq_some_iff] at hfind
      obtain ⟨k, hk, rfl⟩ := hfind
      rw [pieces_of_some hdelim hk, List.drop_drop, ← Nat.add_assoc, ← hnext,
        Nat.add_sub_cancel_left]
  | case2 start hfind =>
      rw [find, if_pos hstart, Option.map_eq_none_iff] at hfind
      rw [pieces_of_none hdelim hfind]

/-- What is in front of the offset stays, behind it stands the replacement between the pieces. -/
theorem replaceFrom_eq {source : CString} (target : CString) (hsource : source ≠ []) (rest : CString) :
    ∀ done : CString, replaceFrom source target hsource (done ++ rest) done.length =
      done ++ Search.join target (pieces source hsource rest) := by
  induction rest using pieces_induction hsource with
  | whole rest h =>
      intro done
      have hfind : find source (done ++ rest) done.length = none := by
        rw [find, if_pos (by simp), List.drop_left, h]
        rfl
      rw [replaceFrom.eq_def]
      split
      · next i hi => rw [hi] at hfind; cases hfind
      · rw [pieces_of_none hsource h]
        simp [Search.join]
  | cut rest k h ih =>
      intro done
      have hfind : find source (done ++ rest) done.length = some (done.length + k) := by
        rw [find, if_pos (by simp), List.drop_left, h]
        rfl
      rw [replaceFrom.eq_def]
      split
      · next i hi =>
          rw [hi] at hfind
          obtain rfl := Option.some.inj hfind
          have hk := ((first_eq_some_iff source rest k).mp h).1
          have htext : (done ++ rest).take (done.length + k) ++ target ++
              (done ++ rest).drop (done.length + k + source.length) =
              (done ++ rest.take k ++ target) ++ rest.drop (k + source.length) := by
            rw [List.take_length_add_append, Nat.add_assoc, List.drop_length_add_append]
          have hoffset : done.length + k + target.length = (done ++ rest.take k ++ target).length := by
            rw [List.length_append, List.length_append, List.length_take_of_le hk]
          rw [htext, hoffset, ih, pieces_of_some hsource h,
            join_cons _ _ (pieces_ne_nil hsource _)]
          simp [List.append_assoc]
      · next hi => rw [hi] at hfind; cases hfind

theorem splitChars_eq (str : CString) (i : Nat) : splitChars str i = characters (str.drop i) := by
  fun_induction splitChars str i with
  | case1 i hi ih => rw [ih, spanAt_eq_takenAt, characters_drop hi]
  | case2 i hi => rw [characters_drop_of_le (by omega)]

theorem split_of_ne_nil {str delim : CString} (hdelim : delim ≠ []) :
    split str delim = pieces delim hdelim str := by
  rw [split, dif_neg hdelim, splitFrom_eq hdelim 0 (Nat.zero_le _), List.drop_zero]

theorem replace_of_ne_nil {s source : CString} (target : CString) (hsource : source ≠ []) :
    replace s source target = Search.join target (pieces source hsource s) := by
  have hwhole := replaceFrom_eq target hsource s []
  rw [replace, dif_neg hsource]
  exact hwhole

theorem split_nil (str : CString) : split str [] = characters str := by
  rw [split, dif_pos rfl, splitChars_eq, List.drop_zero]

theorem join_nil (arr : List CString) : join arr [] = arr.flatten := by
  cases arr with
  | nil => rfl
  | cons part arr =>
      simp [join, Search.join, List.flatMap]

/-- The laws of `split`, `join` and `replace` for a delimiter, of any bytes. -/
theorem split_join_replace (s e : CString) :
    (∀ d : CString, d ≠ [] →
      join (split s d) d = s ∧ (∀ piece ∈ split s d, ¬ d <:+: piece) ∧
        (∃ places, Leftmost d s 0 places ∧ (split s d).length = places.length + 1) ∧
        (∀ places, Leftmost d s 0 places → (split s d).length = places.length + 1) ∧
        replace s d e = join (split s d) e) ∧
      join (split s []) [] = s ∧ split s [] = characters s ∧
      (split s []).length = lengthChars s := by
  refine ⟨?_, ?_, split_nil s, ?_⟩
  · intro d hd
    have hpieces : (split s d).length = (pieces d hd (s.drop 0)).length := by
      rw [split_of_ne_nil hd, List.drop_zero]
    refine ⟨?_, ?_, ?_, ?_, ?_⟩
    · rw [join, split_of_ne_nil hd, join_pieces]
    · rw [split_of_ne_nil hd]
      exact not_infix_of_mem_pieces hd s
    · obtain ⟨places, hplaces⟩ := exists_leftmost hd s 0 (Nat.zero_le _)
      exact ⟨places, hplaces, hpieces.trans (length_pieces hd (Nat.zero_le _) hplaces)⟩
    · intro places hplaces
      exact hpieces.trans (length_pieces hd (Nat.zero_le _) hplaces)
    · rw [replace_of_ne_nil e hd, join, split_of_ne_nil hd]
  · rw [split_nil, join_nil, characters, characterCut.flatten_segments]
  · rw [split_nil, lengthChars_eq]

/-- `split("aaa", "aa")` and `replace("aaa", "aa", "aab")`. -/
theorem split_join_replace_overlap :
    join (split [97, 97, 97] [97, 97]) [97, 97] = [97, 97, 97] ∧
      replace [97, 97, 97] [97, 97] [97, 97, 98] =
        join (split [97, 97, 97] [97, 97]) [97, 97, 98] := by
  have h := (split_join_replace [97, 97, 97] [97, 97, 98]).1 [97, 97] (by decide)
  exact ⟨h.1, h.2.2.2.2⟩

end StringPieces

end EZLanguage
