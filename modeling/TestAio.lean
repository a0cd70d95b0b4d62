import TestAio.Application.Console
import TestAio.Application.FileMain
import TestAio.Data.Article
import TestAio.Data.MeaningLines
import TestAio.Data.Meanings
import TestAio.Data.WordNode
import TestAio.Java.Long
import TestAio.Java.Pattern
import TestAio.Java.Replacement
import TestAio.Java.Split
import TestAio.Java.Text
import TestAio.Library.Alarms
import TestAio.Library.Allocator
import TestAio.Library.Alternatives
import TestAio.Library.Blocks
import TestAio.Library.BoundedQueue
import TestAio.Library.CellPool
import TestAio.Library.CommonPrefix
import TestAio.Library.Cyclic
import TestAio.Library.Delimited
import TestAio.Library.Dict
import TestAio.Library.Effects
import TestAio.Library.FairRounds
import TestAio.Library.FileTree
import TestAio.Library.Filling
import TestAio.Library.Framing
import TestAio.Library.Grouping
import TestAio.Library.Growing
import TestAio.Library.Headings
import TestAio.Library.Intervals
import TestAio.Library.KeyedTable
import TestAio.Library.Locks
import TestAio.Library.LowestBit
import TestAio.Library.Marking
import TestAio.Library.Nesting
import TestAio.Library.Numbering
import TestAio.Library.ReadyList
import TestAio.Library.Recutting
import TestAio.Library.RingOrder
import TestAio.Library.Rounds
import TestAio.Library.Search
import TestAio.Library.Siblings
import TestAio.Library.Sleepers
import TestAio.Library.Splitting
import TestAio.Library.Threaded
import TestAio.Library.Tokens
import TestAio.Library.Triggers
import TestAio.Library.Turnstile
import TestAio.Library.Utf8
import TestAio.Library.WeightedPaths
import TestAio.Library.WorkList
import TestAio.Main.Parse.ParseDoc
import TestAio.Main.Parse.Passages.Agreement
import TestAio.Main.Parse.Passages.Current
import TestAio.Main.Parse.Passages.Documents
import TestAio.Main.Parse.Passages.Line
import TestAio.Main.Parse.Passages.Passage1
import TestAio.Main.Parse.Passages.Passage1Word
import TestAio.Main.Parse.Passages.Passage2
import TestAio.Main.Parse.Passages.Passage2Word
import TestAio.Main.Parse.Passages.Reading
import TestAio.Main.Parse.Passages.Sections
import TestAio.Main.Parse.Passages.Translations
import TestAio.Main.Sql.Options
import TestAio.Main.Sql.Translates
import TestAio.Main.Template.Generate
import TestAio.Main.Template.Remap
import TestAio.Main.Template.SpellTable
import TestAio.Main.Template.WordLayout
import TestAio.Main.Template.WordTable
import TestAio.Python.Clash
import TestAio.Python.ClashLines
import TestAio.Python.MaterialCalculation
import TestAio.Python.Ranges
import TestAio.Python.SerialUtil
import TestAio.RtThread.Allocation
import TestAio.RtThread.BlockQueue
import TestAio.RtThread.EventFlags
import TestAio.RtThread.Ipc
import TestAio.RtThread.Kservice
import TestAio.RtThread.Mailbox
import TestAio.RtThread.MessageQueue
import TestAio.RtThread.Mutex
import TestAio.RtThread.RingBlock
import TestAio.RtThread.RingBuffer
import TestAio.RtThread.Scheduler
import TestAio.RtThread.Semaphore
import TestAio.RtThread.SmallMem
import TestAio.RtThread.TimeSlice
import TestAio.RtThread.Timer
import TestAio.Util.DocUtil.ColumnWidths
import TestAio.Util.DocUtil.Convert
import TestAio.Util.DocUtil.Cutting
import TestAio.Util.DocUtil.Flow
import TestAio.Util.DocUtil.Footnotes
import TestAio.Util.DocUtil.Layout
import TestAio.Util.DocUtil.Marks
import TestAio.Util.DocUtil.ParsePassage
import TestAio.Util.DocUtil.Pieces
import TestAio.Util.DocUtil.ReadRuns
import TestAio.Util.DocUtil.TableShape
import TestAio.Util.DocUtil.TextOrder
import TestAio.Util.HtmlUtil.Articles
import TestAio.Util.HtmlUtil.DocumentNesting
import TestAio.Util.HtmlUtil.FootnoteNumbers
import TestAio.Util.HtmlUtil.Marks
import TestAio.Util.HtmlUtil.PassageNesting
import TestAio.Util.HtmlUtil.References
import TestAio.Util.HtmlUtil.ResolvePassage
import TestAio.Util.HtmlUtil.Segments
import TestAio.Util.HtmlUtil.TextPreservation
import TestAio.Util.HtmlUtil.Words
import TestAio.Util.MarkedArticle
import TestAio.Util.QuestionUtil
import TestAio.Util.QuestionUtil.JsonTree
import TestAio.Util.QuestionUtil.NoMerge
import TestAio.Util.SameMarks
import TestAio.Util.StringUtil
