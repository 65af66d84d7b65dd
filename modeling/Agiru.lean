import Agiru.Transaction.Outcome
import Agiru.Filter.Literal
import Agiru.Temporary.Selection
import Agiru.Database.Agreement
import Agiru.View.Carried
import Agiru.Codec.Faithful
import Agiru.Permission.Policy
import Agiru.Text.Positions
import Agiru.Codec.Unicode
import Agiru.RowVersion.Minimum
import Agiru.NumberSequence.Released
import Agiru.Page.Once
import Agiru.BrowserSession.Chains
import Agiru.Al.Reads
import Agiru.Permission.Untruncated
import Agiru.Dialog.Once
import Agiru.Events.Dispatch
import Agiru.Json.Numbers
import Agiru.RowWrite.Unlost
import Agiru.Modal.Once
import Agiru.XmlPort.ReadBack
import Agiru.Storage.RoundTrip
import Agiru.Xml.Policy
import Agiru.Values.Remainder
import Agiru.Values.Numeral
import Agiru.Values.Significant
import Agiru.Values.Round
import Agiru.Filter.Columns
import Agiru.Marks.Identity
import Agiru.Command.Course
import Agiru.TestRunner.Results
import Agiru.Filter.Wildcards
import Agiru.Filter.Normal
import Agiru.Filter.Limit
import Agiru.Temporary.ModifyAll
import Agiru.Temporary.Map
import Agiru.Storage.Rereading
import Agiru.Position.Whole
import Agiru.Trigger.Whole
import Agiru.Filter.SortOrder
import Agiru.Formula.Written
import Agiru.Series.Exact
import Agiru.Series.Denoted
import Agiru.Database.Window
import Agiru.Names.OptionNames
import Agiru.Text.CodeOrder
import Agiru.Text.IncStr
import Agiru.Text.CharacterSets
import Agiru.CalcDate.Range
import Agiru.Al.RoundTrip
import Agiru.Al.Directives
import Agiru.Extension.Merge
import Agiru.Text.GroupsFound
import Agiru.Text.UriTexts
import Agiru.Text.Split
import Agiru.Storage.GuidTexts
import Agiru.Values.Arithmetic
import Agiru.CalcDate.Civil
import Agiru.Record.Changes
import Agiru.Writer.Loops
import Agiru.Runner.Owned
import Agiru.Authority.Locked
import Agiru.Http.Runs
