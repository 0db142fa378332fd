import Bettergram.Storage.Cache.Sessions
import Bettergram.Storage.Cache.CompactedLog
import Bettergram.Storage.Cache.Compacting
import Bettergram.Storage.Cache.ContentsRuns
import Bettergram.Storage.Cache.ContentsCalls
import Bettergram.Storage.Cache.Contents
import Bettergram.Storage.FileDownloadAssembled
import Bettergram.Storage.FileDownloadRuns
import Bettergram.Storage.FileDownloadAnswers
import Bettergram.Core.HashCrc32
import Bettergram.Foundation.SafePrime
import Bettergram.Mtproto.ModExp
import Bettergram.Ui.Widgets.MarkdownTagTracking
import Bettergram.Ui.Widgets.MarkdownTagsReal
import Bettergram.Ui.Widgets.MarkdownTagViews
import Bettergram.Ui.Widgets.MarkdownTagItems
import Bettergram.Lang.ReplaceTag
import Bettergram.Storage.UserPhotos
import Bettergram.Data.SparseIdsMergedSlice
import Bettergram.Core.HashMd5
import Bettergram.Mtproto.DedicatedLoaderOrder
import Bettergram.Mtproto.DedicatedLoaderRuns
import Bettergram.Mtproto.DedicatedLoader
import Bettergram.Export.ChatsOnce
import Bettergram.Export.ChatsList
import Bettergram.Export.Output.BlockFile
import Bettergram.Export.Output.MakeLinks
import Bettergram.Codegen.CleanFile
import Bettergram.Base.StripSources
import Bettergram.Base.StripStrings
import Bettergram.Base.StripSteps
import Bettergram.Base.CommentSource
import Bettergram.Export.Output.HtmlStrings
import Bettergram.Export.Output.JsonObjects
import Bettergram.Export.Output.JsonStrings
import Bettergram.Foundation.JsonText
import Bettergram.Export.Output.EscapedString
import Bettergram.Foundation.Utf8
import Bettergram.Ui.Text.FieldTags
import Bettergram.Ui.Text.RichRounds
import Bettergram.Ui.Text.RichEntities
import Bettergram.Foundation.Loops
import Bettergram.Core.MsgId
import Bettergram.Mtproto.FactorPQ
import Bettergram.Foundation.DifferenceOfSquares
import Bettergram.Mtproto.NotSecureResponse
import Bettergram.Mtproto.TcpFraming
import Bettergram.Base.FlatSetModify
import Bettergram.Dialogs.DialogsListNames
import Bettergram.Dialogs.DialogsListOrder
import Bettergram.Data.PinnedDialogsBounds
import Bettergram.Mtproto.ResetSeparates
import Bettergram.Mtproto.ResetCollisions
import Bettergram.Mtproto.ResetApart
import Bettergram.Export.ChatComplete
import Bettergram.Export.ChatRuns
import Bettergram.Export.ChatPages
import Bettergram.Export.ChatProcess
import Bettergram.Prices.FavoriteRuns
import Bettergram.Prices.Favorites
import Bettergram.Prices.CryptoPriceList
import Bettergram.News.RssRuns
import Bettergram.News.RssMerge
import Bettergram.News.RssChannel
import Bettergram.Storage.Cache.ChunkedReading
import Bettergram.Storage.Cache.ChunkedReader
import Bettergram.Storage.Cache.SizeStale
import Bettergram.Storage.FailedWrites
import Bettergram.Storage.SparseIdsQueryRuns
import Bettergram.Storage.SparseIdsQuery
import Bettergram.Storage.SparseIdsCount
import Bettergram.Ui.Widgets.AppliedMarkdownKeeps
import Bettergram.Ui.Widgets.AppliedMarkdownLoop
import Bettergram.Ui.Widgets.AppliedMarkdownTags
import Bettergram.Ui.Widgets.AppliedMarkdown
import Bettergram.Ui.Widgets.MarkdownTagFeed
import Bettergram.Ui.Widgets.MarkdownTagPlaces
import Bettergram.Ui.Widgets.MarkdownTagAccumulator
import Bettergram.Ui.Text.CutPartRuns
import Bettergram.Ui.Text.CutPartEntities
import Bettergram.Ui.Text.CutPart
import Bettergram.Ui.Text.ServerCleaningRight
import Bettergram.Ui.Text.ServerCleaningReturns
import Bettergram.Ui.Text.ServerCleaningTabs
import Bettergram.Ui.Text.ServerCleaning
import Bettergram.Ui.Text.ParseEntitiesAdds
import Bettergram.Ui.Text.ParseEntitiesLinks
import Bettergram.Ui.Text.ParseEntities
import Bettergram.Ui.Text.TextEntity
import Bettergram.Data.GroupsRuns
import Bettergram.Data.Groups
import Bettergram.Data.PinnedDialogsPins
import Bettergram.Data.PinnedDialogsRuns
import Bettergram.Data.PinnedDialogs
import Bettergram.Lang.LangFileRoundTrip
import Bettergram.Lang.LangFileWritten
import Bettergram.Lang.LangFileParser
import Bettergram.Base.ParseHelper
import Bettergram.Storage.FileDownloadHandlers
import Bettergram.Storage.FileDownloadRequests
import Bettergram.Storage.FileDownload
import Bettergram.Passport.Encryption
import Bettergram.Storage.LocalFileCrash
import Bettergram.Storage.LocalEncrypted
import Bettergram.Storage.LocalFileRoundTrip
import Bettergram.Storage.LocalFileBytes
import Bettergram.Storage.LocalFile
import Bettergram.Foundation.Blocks
import Bettergram.Storage.FileLoaderQueueRuns
import Bettergram.Storage.FileLoaderQueueStart
import Bettergram.Storage.FileLoaderQueue
import Bettergram.Dialogs.DialogsListRuns
import Bettergram.Dialogs.DialogsListOperations
import Bettergram.Dialogs.DialogsListMoves
import Bettergram.Dialogs.DialogsList
import Bettergram.Foundation.LinkedList
import Bettergram.Media.Streaming.RoundTrip
import Bettergram.Data.SparseIdsSliceRuns
import Bettergram.Base.FlatMapRanges
import Bettergram.Mtproto.AuthWaitersRuns
import Bettergram.Mtproto.DcOptionsSurvive
import Bettergram.Mtproto.NotLost
import Bettergram.Mtproto.TcpReading
import Bettergram.Mtproto.CoreTypesStrings
import Bettergram.Data.PtsWaiterOnce
import Bettergram.Storage.SparseIdsKnown
import Bettergram.Mtproto.ReceivedMsgIds
import Bettergram.Storage.Cache.Statistics
import Bettergram.Storage.Cache.System
import Bettergram.Storage.Cache.Calls
import Bettergram.Storage.Cache.LogRefinement
import Bettergram.Storage.Cache.LogRecovery
import Bettergram.Storage.Cache.LogInvariant
import Bettergram.Storage.Cache.Opening
import Bettergram.Storage.Cache.Replay
import Bettergram.Foundation.KeyLog
import Bettergram.Foundation.TreeMaps
import Bettergram.Storage.Cache.Memory
import Bettergram.Storage.Cache.CallEvents
import Bettergram.Storage.Cache.DatabaseObject
import Bettergram.Storage.Cache.LogReading
import Bettergram.Storage.Cache.LogCodec
import Bettergram.Storage.Cache.BinlogReader
import Bettergram.Storage.Cache.Types
import Bettergram.Foundation.Records
import Bettergram.Storage.FileRuns
import Bettergram.Foundation.LittleEndian
