import Sj3.Model.Adddic
import Sj3.Model.Deldic
import Sj3.Verification.Segment.Grammar
import Sj3.Verification.Kanji.RoundTrip
import Sj3.Verification.Dict.IndexArea
import Sj3.Verification.Dict.Lookup
import Sj3.Verification.Dict.Found
import Sj3.Verification.Dict.Geometry
import Sj3.Verification.Add.Registered
import Sj3.Verification.Study.Eviction
import Sj3.Verification.Study.Scan
import Sj3.Verification.Kouho.Learning
import Sj3.Verification.Kouho.Sameknj
import Sj3.Verification.Clause.Complete
import Sj3.Verification.Request.Count
import Sj3.Verification.Request.Fullpath
import Sj3.Verification.Request.PutOver
import Sj3.Verification.Request.Ikkatu
import Sj3.Verification.Request.ClauseInput
import Sj3.Verification.Romaji.Longest
import Sj3.Verification.Romaji.Undo
import Sj3.Verification.Server.Lock
import Sj3.Verification.Server.Identity
import Sj3.General.KeyedTable
import Sj3.Verification.Fuzoku.Scan
import Sj3.Verification.Fuzoku.Afresh
import Sj3.Verification.Fuzoku.Capacity
import Sj3.Verification.Encoding.Bounds
import Sj3.Verification.Request.GetkanEuc
import Sj3.Verification.Encoding.Wide
import Sj3.Verification.Encoding.Width
import Sj3.Verification.Server.Connect
import Sj3.Verification.Suuji.Denotes
import Sj3.Verification.Dict.Bisection
import Sj3.Verification.Segment.Walks
import Sj3.Verification.Reclist.Count
import Sj3.Verification.Reclist.Suffix
import Sj3.Verification.Add.Arguments
import Sj3.Verification.Delete.Run
import Sj3.General.Bisect
import Sj3.General.Macro
import Sj3.Model.Makeseg
import Sj3.Verification.Mkdic.Expand
import Sj3.Verification.Mkdic.Makehead
