import UrlTraveler.Favorite
import UrlTraveler.Schemes.Sorting
import UrlTraveler.Schemes.Cycles
import UrlTraveler.Schemes.Forest
import UrlTraveler.Schemes.Runs
import UrlTraveler.Schemes.Walk
import UrlTraveler.Schemes.Maps
import UrlTraveler.PlugIn.Merge
import UrlTraveler.PlugIn.MergeRun
import UrlTraveler.PlugIn.MergeStable
import UrlTraveler.PlugIn.MergeTies
import UrlTraveler.PlugIn.MergeOverlap
import UrlTraveler.DataCenter.Favorites
import UrlTraveler.DataCenter.Renumber
import UrlTraveler.DataCenter.Edit
import UrlTraveler.DataCenter.Folders
import UrlTraveler.Chrome.Build
import UrlTraveler.Chrome.Depth
import UrlTraveler.Chrome.Traverse
import UrlTraveler.Chrome.Tree
import UrlTraveler.Json.Reader
import UrlTraveler.Chrome.Node
import UrlTraveler.Chrome.Import
import UrlTraveler.Chrome.Checksum
import UrlTraveler.Chrome.Export
import UrlTraveler.Chrome.Bookmarks
import UrlTraveler.ModuleManager.Bus
import UrlTraveler.Sogou.Codec
import UrlTraveler.MainFrame.Tree
import UrlTraveler.MainFrame.IdMaps
import UrlTraveler.MainFrame.FavoriteList
import UrlTraveler.PlugIn.Import
import UrlTraveler.Update.UpdateModule
import UrlTraveler.PlugIn.BookmarkFiles
import UrlTraveler.PlugIn.Export
import UrlTraveler.Web.WebModule
import UrlTraveler.Web.Requests
import UrlTraveler.Web.Answers
import UrlTraveler.Web.FinalAnswers
import UrlTraveler.Web.TaskMaps
import UrlTraveler.DataCenter.ReArrange
import UrlTraveler.DataCenter.Delete
import UrlTraveler.DataCenter.Selection
import UrlTraveler.PlugIn.Windows
import UrlTraveler.FireFox.Places
import UrlTraveler.FireFox.Insert
import UrlTraveler.Config.TxConfig
import UrlTraveler.PlugIn.Counts
import UrlTraveler.TT.TTPlugIn
import UrlTraveler.PlugIn.Maxthon
import UrlTraveler.TrayIcon.Handlers
import UrlTraveler.TrayIcon.Flash
import UrlTraveler.Update.UpdateThread
import UrlTraveler.Database.FavIcons
import UrlTraveler.DataCenter.Icons
import UrlTraveler.PlugIn.IEPlugIn
import UrlTraveler.Net.PacketCache
import UrlTraveler.Net.TCPClient
import UrlTraveler.Schemes.Numerals
import UrlTraveler.Chrome.Times
import UrlTraveler.Schemes.Crc
import UrlTraveler.Utility.CRCHash
import UrlTraveler.Utility.Hex
import UrlTraveler.Schemes.Words
import UrlTraveler.Utility.TimeHelper
import UrlTraveler.Web.Progress
import UrlTraveler.Utility.Split
import UrlTraveler.Utility.Version
import UrlTraveler.Schemes.Buffers
import UrlTraveler.Schemes.X86
import UrlTraveler.Sogou.Bounds
import UrlTraveler.Config.Bounds
import UrlTraveler.Utility.Replace
import UrlTraveler.Schemes.Aes
import UrlTraveler.Sogou.Tables
import UrlTraveler.Sogou.EncodePage
import UrlTraveler.Sogou.EncodeRounds
import UrlTraveler.Utility.FilePath
import UrlTraveler.Chrome.Digest
import UrlTraveler.Transfer.Callbacks
import UrlTraveler.Transfer.Reports
import UrlTraveler.Transfer.Progress
import UrlTraveler.Utility.MD5Checksum
